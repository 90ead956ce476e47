import MumbleServer.ControlQueue
import MumbleServer.Runs

/-! # The initial sync of a local client

`sendSync` streams the channels and the roster to a client that has authenticated.  It writes
`CryptSetup` to the connection, and then hands one message after the other to the control queue of
the session, which holds 64 of them.  The worker of the queue writes them to the connection
(`controlSink`), whose write queue holds 64 requests; the connection's writer sends these to the
socket.  Nobody waits for anybody: a message that finds a queue full is refused, and the sync fails.

The three goroutines take turns in any order, while other sessions broadcast to this one.  The
socket accepts everything.  `sync_passes_iff` says for which servers no order makes the sync fail. -/

namespace MumbleServer.Control

open List

/-! ### The messages -/

/-- What is written to a connection until it is active, as far as it is told apart here. -/
inductive Message where
  | version
  | cryptSetup
  | codecVersion
  | channelState (channelID : ℕ)
  | userState (ref : SessionRef)
  | serverSync
  | serverConfig
  /-- What another session broadcasts. -/
  | broadcast
deriving DecidableEq

/-- What `sendSync` reads: `GetTree`, `SnapshotAll` and the registry. -/
structure World where
  tree : List ℕ
  users : List User
  registry : Registry

def World.others (w : World) (u : User) : List User :=
  w.users.filter fun ou => decide (ou.sessionID ≠ u.sessionID) && w.registry.active ou.ref

/-- What `sendSync` hands to `SendInitial`. -/
def World.initial (w : World) (u : User) : List Message :=
  .codecVersion :: w.tree.map .channelState ++
    .userState u.ref :: (w.others u).map (fun ou => .userState ou.ref) ++
    [.serverSync, .serverConfig]

theorem World.length_initial (w : World) (u : User) :
    (w.initial u).length = w.tree.length + (w.others u).length + 4 := by
  simp only [initial, length_append, length_cons, length_map, length_nil]
  omega

/-! ### The goroutines -/

def controlDeferredLimit : ℕ := 64

/-- The capacity of `writeCh`. -/
def writeLimit : ℕ := 64

/-- `enqueue` of an open connection: the write queue, unless it is full. -/
def enqueue (writeCh : List Message) (m : Message) : Option (List Message) :=
  if writeCh.length < writeLimit then some (writeCh ++ [m]) else none

/-- Where `sendSync` and the `CommitSyncAndAnnounce` after it stand. -/
inductive SyncPhase where
  | cryptSetup (messages : List Message)
  | initial (todo : List Message)
  /-- The barrier is in the queue. -/
  | waiting
  | failed

/-- The control queue with its worker, the write queue of the connection, and `sendSync`. -/
structure Sync where
  line : Line Message
  writeCh : List Message
  phase : SyncPhase

/-- After `BeginSync`, with what is in the write queue. -/
def Sync.start (w : World) (u : User) (writeCh : List Message) : Sync :=
  ⟨{ cs := { limit := controlDeferredLimit } }, writeCh, .cryptSetup (w.initial u)⟩

inductive SyncEvent where
  | sendSync
  /-- The next access of the worker; `ok` as for `Line.work`, except that the connection answers
  a write. -/
  | work (ok : Bool)
  /-- The connection's writer takes a request and writes it. -/
  | write
  | broadcast

/-- What can go wrong. -/
inductive Refusal where
  | cryptSetup
  | sendInitial (err : Error)
  | commit (err : Error)
  | writeControl
deriving DecidableEq

namespace Sync
variable (s : Sync)

/-- The next step of `sendSync`, and whether it is refused. -/
def sendSync : Sync × Option Refusal :=
  match s.phase with
  | .cryptSetup messages =>
    match enqueue s.writeCh .cryptSetup with
    | some writeCh => ({ s with writeCh := writeCh, phase := .initial messages }, none)
    | none => ({ s with phase := .failed }, some .cryptSetup)
  | .initial [] =>
    match s.line.startCommit .syncing 0 with
    | (line, .ok ()) => ({ s with line := line, phase := .waiting }, none)
    | (line, .error err) => ({ s with line := line, phase := .failed }, some (.commit err))
  | .initial (m :: todo) =>
    match s.line.sendInitial .syncing m with
    | (line, .ok ()) => ({ s with line := line, phase := .initial todo }, none)
    | (line, .error err) => ({ s with line := line, phase := .failed }, some (.sendInitial err))
  | .waiting => (s, none)
  | .failed => (s, none)

/-- The next access of the worker. -/
def work (ok : Bool) : Sync × Option Refusal :=
  match s.line.worker with
  | .writing _ m =>
    match enqueue s.writeCh m with
    | some writeCh => ({ s with line := s.line.work true, writeCh := writeCh }, none)
    | none => ({ s with line := s.line.work false }, some .writeControl)
  | _ => ({ s with line := s.line.work ok }, none)

def act : SyncEvent → Sync × Option Refusal
  | .sendSync => s.sendSync
  | .work ok => s.work ok
  | .write => ({ s with writeCh := s.writeCh.tail }, none)
  | .broadcast => ({ s with line := (s.line.send .syncing .broadcast).1 }, none)

def step (e : SyncEvent) : Sync := (s.act e).1

end Sync

/-- The step is not refused. -/
def Passes (s : Sync) (e : SyncEvent) : Prop := (s.act e).2 = none

/-- Nothing else closes the session: what others broadcast fits in its queue. -/
def Undisturbed (s : Sync) : SyncEvent → Prop
  | .broadcast => s.line.cs.deferred.length < controlDeferredLimit
  | _ => True

/-! ### Enough room -/

/-- The messages in a control queue and in the hands of its worker. -/
def Line.load {M : Type} (l : Line M) : ℕ :=
  l.worker.unwritten.length + (l.cs.queue.filterMap Command.message).length

/-- What `sendSync` has yet to send. -/
def SyncPhase.load : SyncPhase → ℕ
  | .cryptSetup messages => messages.length + 1
  | .initial todo => todo.length
  | _ => 0

/-- The messages on their way to the socket. -/
def Sync.load (s : Sync) : ℕ := s.phase.load + s.line.load + s.writeCh.length

/-- `sendSync` is not through. -/
def SyncPhase.streaming : SyncPhase → Bool
  | .cryptSetup _ => true
  | .initial _ => true
  | _ => false

/-- A command of `SendInitial`. -/
def Command.plain {M : Type} (cmd : Command M) : Bool :=
  cmd.message.isSome && !cmd.flush && !cmd.final

/-- A worker that has nothing but messages to write. -/
def Worker.streaming {M : Type} : Worker M → Bool
  | .flushing _ => false
  | .failing _ _ => false
  | .answering _ err => err.isNone
  | .exited => false
  | _ => true

/-- An open control queue with nothing but messages of `SendInitial`. -/
structure Line.Streaming {M : Type} (l : Line M) : Prop where
  limit : l.cs.limit = controlDeferredLimit
  opened : l.cs.closed = false
  going : l.cs.stopped = false
  committing : l.cs.committing = false
  worker : l.worker.streaming = true
  plain : ∀ cmd ∈ l.pending, cmd.plain = true

/-- All messages fit in the write queue. -/
structure Sync.Room (s : Sync) : Prop where
  load : s.load ≤ writeLimit
  streaming : s.phase.streaming = true → s.line.Streaming

section lines
variable {M : Type} {l : Line M}

attribute [local simp] Worker.unwritten afterWrite

open Line

/-- The worker adds no message, and one that it writes is off its hands. -/
theorem Line.load_work (l : Line M) (ok : Bool) : (l.work ok).load ≤ l.load := by
  unfold work load
  cases hw : l.worker with
  | idle =>
    cases ok with
    | true =>
      cases hq : l.cs.queue with
      | nil => simp [hq, hw]
      | cons cmd rest => cases hm : cmd.message <;> simp [hm, Nat.add_comm]
    | false => cases l.cs.stopped <;> simp [hw]
  | holding cmd =>
    cases l.cs.stopped with
    | true => simp
    | false =>
      cases hm : cmd.message <;> cases hf : cmd.flush <;>
        simp [hm, hf]
  | writing cmd m =>
    cases ok <;> cases hf : cmd.flush <;> simp [hf]
  | flushing cmd => cases ok <;> simp
  | failing cmd err => simp
  | answering cmd err =>
    dsimp only
    split_ifs <;> simp
  | exited => simp [hw]

theorem Line.load_work_writing {cmd : Command M} {m : M} (h : l.worker = .writing cmd m)
    (ok : Bool) : (l.work ok).load + 1 ≤ l.load := by
  unfold work load
  rw [h]
  cases ok <;> cases hf : cmd.flush <;> simp [hf, Nat.add_comm]

theorem Command.plain_iff {cmd : Command M} :
    cmd.plain = true ↔ cmd.message.isSome = true ∧ cmd.flush = false ∧ cmd.final = false := by
  simp [plain, and_assoc]

theorem Line.Streaming.work (h : l.Streaming) (ok : Bool)
    (hok : ∀ cmd m, l.worker = .writing cmd m → ok = true) : (l.work ok).Streaming := by
  have hsame := h
  obtain ⟨hlimit, hopen, hgoing, hcom, hworker, hplain⟩ := h
  unfold Line.pending at hplain
  unfold Line.work
  cases hw : l.worker with
  | idle =>
    rw [hw] at hplain
    cases ok with
    | true =>
      cases hq : l.cs.queue with
      | nil => exact hsame
      | cons cmd rest =>
        rw [hq] at hplain
        exact ⟨hlimit, hopen, hgoing, hcom, rfl, hplain⟩
    | false => simpa [hgoing] using hsame
  | holding cmd =>
    rw [hw] at hplain
    obtain ⟨hm, -, -⟩ := Command.plain_iff.mp (hplain cmd (mem_cons_self ..))
    obtain ⟨m, hm⟩ := Option.isSome_iff_exists.mp hm
    simp only [hgoing, hm, Bool.false_eq_true, if_false]
    exact ⟨hlimit, hopen, hgoing, hcom, rfl, hplain⟩
  | writing cmd m =>
    rw [hw] at hplain
    obtain ⟨-, hf, -⟩ := Command.plain_iff.mp (hplain cmd (mem_cons_self ..))
    simp only [hok cmd m hw, if_true, afterWrite, hf, Bool.false_eq_true, if_false]
    exact ⟨hlimit, hopen, hgoing, hcom, rfl, hplain⟩
  | flushing cmd | failing cmd err | exited => simp [hw, Worker.streaming] at hworker
  | answering cmd err =>
    rw [hw] at hplain hworker
    obtain ⟨-, -, hfinal⟩ := Command.plain_iff.mp (hplain cmd (mem_cons_self ..))
    have herr : err.isSome = false := by simpa [Worker.streaming] using hworker
    simp only [herr, hfinal, Bool.or_self, Bool.false_eq_true, if_false]
    exact ⟨hlimit, hopen, hgoing, hcom, rfl, fun c hc => hplain c (mem_cons_of_mem _ hc)⟩

theorem Line.Streaming.length_queue (h : l.Streaming) :
    (l.cs.queue.filterMap Command.message).length = l.cs.queue.length :=
  filterMap_length_eq_length.mpr fun cmd hc =>
    (Command.plain_iff.mp (h.plain cmd (mem_append_right _ hc))).1

theorem Line.Streaming.sendInitial (h : l.Streaming) (m : M)
    (hroom : l.load < controlDeferredLimit) :
    (l.sendInitial .syncing m).2 = .ok () ∧ (l.sendInitial .syncing m).1.Streaming ∧
      (l.sendInitial .syncing m).1.load = l.load + 1 := by
  have hlen := h.length_queue
  have hqueue : l.cs.queue.length < l.cs.limit := by
    rw [h.limit]
    unfold load at hroom
    omega
  have hcs : l.cs.sendInitial .syncing m =
      ({ l.cs with queue := l.cs.queue ++ [{ message := some m }] }, .ok ()) := by
    simp [Session.sendInitial, Session.enqueueLocked, h.opened, h.committing,
      Nat.not_le.mpr hqueue, Nat.lt_succ_of_lt hqueue]
  unfold Line.sendInitial Line.record
  rw [hcs]
  refine ⟨rfl, { h with plain := ?_ }, ?_⟩
  · intro cmd hc
    rw [pending, ← append_assoc, mem_append, mem_singleton] at hc
    rcases hc with hc | rfl
    · exact h.plain cmd hc
    · rfl
  · simp [load, Nat.add_assoc]

theorem Line.Streaming.startCommit (h : l.Streaming) (hroom : l.load ≤ controlDeferredLimit) :
    (l.startCommit .syncing 0).2 = .ok () ∧ (l.startCommit .syncing 0).1.load = l.load := by
  have hlen := h.length_queue
  have hqueue : l.cs.queue.length < l.cs.limit + 1 := by
    rw [h.limit]
    unfold Line.load at hroom
    omega
  simp [Line.startCommit, Line.record, Session.startCommit, Session.enqueueLocked, h.opened,
    h.committing, hqueue, Line.load]

theorem Line.load_send (l : Line M) (m : M) : (l.send .syncing m).1.load = l.load := by
  unfold send record Session.send load
  split_ifs <;> simp

theorem Line.Streaming.send (h : l.Streaming) (m : M)
    (hroom : l.cs.deferred.length < controlDeferredLimit) : (l.send .syncing m).1.Streaming := by
  rw [← h.limit] at hroom
  have hcs : l.cs.send .syncing m = ({ l.cs with deferred := l.cs.deferred ++ [m] }, .ok ()) := by
    simp [Session.send, h.opened, Nat.not_le.mpr hroom]
  unfold Line.send Line.record
  rw [hcs]
  exact { h with }

end lines

section sync
variable {s : Sync}

theorem enqueue_eq_some {writeCh : List Message} (m : Message) (h : writeCh.length < writeLimit) :
    enqueue writeCh m = some (writeCh ++ [m]) := if_pos h

/-- With room for all messages, `sendSync` is not refused. -/
theorem Sync.Room.sendSync (h : s.Room) : s.sendSync.2 = none ∧ s.sendSync.1.Room := by
  have hsame := h
  obtain ⟨hload, hstreaming⟩ := h
  have hlimits : controlDeferredLimit = writeLimit := rfl
  unfold Sync.load at hload
  unfold Sync.sendSync
  cases hp : s.phase with
  | cryptSetup messages =>
    rw [hp] at hload hstreaming
    dsimp only [SyncPhase.load] at hload ⊢
    rw [enqueue_eq_some .cryptSetup (by omega)]
    refine ⟨rfl, ?_, fun _ => hstreaming rfl⟩
    simp only [Sync.load, SyncPhase.load, length_append, length_singleton]
    omega
  | initial todo =>
    rw [hp] at hload hstreaming
    have hline := hstreaming rfl
    cases todo with
    | nil =>
      dsimp only [SyncPhase.load, length_nil] at hload ⊢
      obtain ⟨hok, hl⟩ := hline.startCommit (by omega)
      rw [show s.line.startCommit .syncing 0 = (_, .ok ()) from Prod.ext rfl hok]
      refine ⟨rfl, ?_, by simp [SyncPhase.streaming]⟩
      simp only [Sync.load, SyncPhase.load, hl]
      omega
    | cons m todo =>
      dsimp only [SyncPhase.load, length_cons] at hload ⊢
      obtain ⟨hok, hl, hload'⟩ := hline.sendInitial m (by omega)
      rw [show s.line.sendInitial .syncing m = (_, .ok ()) from Prod.ext rfl hok]
      refine ⟨rfl, ?_, fun _ => hl⟩
      simp only [Sync.load, SyncPhase.load, hload']
      omega
  | waiting | failed => exact ⟨rfl, hsame⟩

theorem Sync.Room.work (h : s.Room) (ok : Bool) : (s.work ok).2 = none ∧ (s.work ok).1.Room := by
  obtain ⟨hload, hstreaming⟩ := h
  unfold Sync.load at hload
  unfold Sync.work
  split
  · rename_i cmd m hw
    have hwork := Line.load_work_writing hw true
    rw [enqueue_eq_some m (by omega)]
    refine ⟨rfl, ?_, fun hp => (hstreaming hp).work true fun _ _ _ => rfl⟩
    simp only [Sync.load, length_append, length_singleton]
    omega
  · rename_i hw
    have hwork := s.line.load_work ok
    refine ⟨rfl, ?_, fun hp => (hstreaming hp).work ok fun cmd m he => absurd he (hw cmd m)⟩
    simp only [Sync.load]
    omega

/-- **With room for all messages no step is refused.** -/
theorem Sync.Room.step (h : s.Room) (e : SyncEvent) (hu : Undisturbed s e) :
    Passes s e ∧ (s.step e).Room := by
  cases e with
  | sendSync => exact h.sendSync
  | work ok => exact h.work ok
  | write =>
    refine ⟨rfl, ?_, h.streaming⟩
    have hload := h.load
    simp only [Sync.load, Sync.step, Sync.act, length_tail] at hload ⊢
    omega
  | broadcast =>
    refine ⟨rfl, ?_, fun hp => (h.streaming hp).send _ hu⟩
    have hload := h.load
    simpa only [Sync.load, Sync.step, Sync.act, Line.load_send] using hload

end sync

/-! ### Too little room -/

/-- An open control queue with nothing in it. -/
structure Line.Empty {M : Type} (l : Line M) : Prop where
  limit : l.cs.limit = controlDeferredLimit
  opened : l.cs.closed = false
  going : l.cs.stopped = false
  committing : l.cs.committing = false
  queue : l.cs.queue = []
  worker : l.worker = .idle

section overflow
variable {l : Line Message} {m : Message} {writeCh todo : List Message}

/-- The worker takes a message that `sendSync` has just sent and is about to write it. -/
theorem Line.Empty.run_sendSync (h : l.Empty) : ∃ l' cmd,
    run Sync.step ⟨l, writeCh, .initial (m :: todo)⟩ [.sendSync, .work true, .work true] =
      ⟨l', writeCh, .initial todo⟩ ∧
    l'.worker = .writing cmd m ∧ cmd.plain = true ∧ { l' with worker := .idle }.Empty := by
  obtain ⟨⟨limit, queue, deferred, stopped, closed, committing, failed⟩, worker, written, answers,
    log⟩ := l
  obtain ⟨rfl, rfl, rfl, rfl, rfl, rfl⟩ := h
  exact ⟨_, _, rfl, rfl, rfl, rfl, rfl, rfl, rfl, rfl, rfl⟩

theorem Line.Empty.run_write {cmd : Command Message} (h : { l with worker := .idle }.Empty)
    (hw : l.worker = .writing cmd m) (hcmd : cmd.plain = true)
    (hroom : writeCh.length < writeLimit) (phase : SyncPhase) : ∃ l', l'.Empty ∧
    run Sync.step ⟨l, writeCh, phase⟩ [.work true, .work true] = ⟨l', writeCh ++ [m], phase⟩ := by
  obtain ⟨-, hflush, hfinal⟩ := Command.plain_iff.mp hcmd
  have hwrite : Sync.step ⟨l, writeCh, phase⟩ (.work true) =
      ⟨{ l with written := l.written ++ [m], worker := .answering cmd none }, writeCh ++ [m],
        phase⟩ := by
    simp [Sync.step, Sync.act, Sync.work, hw, enqueue_eq_some m hroom, work, afterWrite, hflush]
  have hanswer : Sync.step ⟨{ l with written := l.written ++ [m], worker := .answering cmd none },
      writeCh ++ [m], phase⟩ (.work true) = ⟨{ l with
        written := l.written ++ [m]
        worker := .idle
        answers := l.answers ++ cmd.done.toList.map (fun call => (call, none)) },
      writeCh ++ [m], phase⟩ := by
    simp [Sync.step, Sync.act, Sync.work, work, hfinal]
  refine ⟨_, ?_, by rw [run_cons, hwrite, run_cons, hanswer, run_nil]⟩
  exact ⟨h.limit, h.opened, h.going, h.committing, h.queue, rfl⟩

theorem not_passes {s : Sync} {es : List SyncEvent} {e : SyncEvent} {r : Refusal}
    (h : ((run Sync.step s es).act e).2 = some r) : ¬Along Sync.step Passes s (es ++ [e]) := by
  intro hp
  rw [hp.at] at h
  cases h

/-- With too little room, a schedule in which the writer of the connection is slow makes a write
fail. -/
theorem Line.Empty.refused (h : l.Empty) (hch : writeCh.length ≤ writeLimit)
    (hload : writeLimit < writeCh.length + todo.length) : ∃ es,
    Along Sync.step Undisturbed ⟨l, writeCh, .initial todo⟩ es ∧
      ¬Along Sync.step Passes ⟨l, writeCh, .initial todo⟩ es := by
  induction todo generalizing l writeCh with
  | nil =>
    rw [length_nil] at hload
    omega
  | cons m todo ih =>
    rw [length_cons] at hload
    obtain ⟨l', cmd, hrun, hw, hcmd, hl'⟩ := h.run_sendSync
    by_cases hroom : writeCh.length < writeLimit
    · obtain ⟨l'', hl'', hwrite⟩ := hl'.run_write hw hcmd hroom (.initial todo)
      have hlen : (writeCh ++ [m]).length = writeCh.length + 1 := by simp
      obtain ⟨es, hu, hp⟩ := ih hl'' (hlen.trans_le hroom) (by rw [hlen]; omega)
      have hturn : run Sync.step ⟨l, writeCh, .initial (m :: todo)⟩
          ([.sendSync, .work true, .work true] ++ [.work true, .work true]) =
            ⟨l'', writeCh ++ [m], .initial todo⟩ := by
        rw [run_append, hrun, hwrite]
      refine ⟨[.sendSync, .work true, .work true] ++ [.work true, .work true] ++ es, ?_, ?_⟩
      · rw [along_append, hturn]
        exact ⟨by simp [Undisturbed], hu⟩
      · rw [along_append, hturn]
        exact fun h => hp h.2
    · refine ⟨[.sendSync, .work true, .work true] ++ [.work true], by simp [Undisturbed], ?_⟩
      have hrefused : ((Sync.mk l' writeCh (.initial todo)).act (.work true)).2 =
          some .writeControl := by
        simp [Sync.act, Sync.work, hw, enqueue, hroom]
      rw [← hrun] at hrefused
      exact not_passes hrefused

end overflow

/-- **Who can always join.**  Whatever the order in which `sendSync`, the worker and the writer take
turns, and whatever others broadcast, no message of the sync is refused: this is so exactly if the
write queue has room for all of them, beside what is in it when the sync starts. -/
theorem sync_passes_iff (w : World) (u : User) (writeCh : List Message) :
    (∀ es, Along Sync.step Undisturbed (Sync.start w u writeCh) es →
      Along Sync.step Passes (Sync.start w u writeCh) es) ↔
    writeCh.length + w.tree.length + (w.others u).length ≤ 59 := by
  have hlen := w.length_initial u
  have hlimit : writeLimit = 64 := rfl
  constructor
  · intro h
    by_contra hlarge
    by_cases hroom : writeCh.length < writeLimit
    · have hstart : (Sync.start w u writeCh).step .sendSync =
          ⟨(Sync.start w u writeCh).line, writeCh ++ [.cryptSetup], .initial (w.initial u)⟩ := by
        simp [Sync.step, Sync.act, Sync.sendSync, Sync.start, enqueue_eq_some _ hroom]
      have hempty : (Sync.start w u writeCh).line.Empty := ⟨rfl, rfl, rfl, rfl, rfl, rfl⟩
      have hcrypt : (writeCh ++ [Message.cryptSetup]).length = writeCh.length + 1 := by simp
      obtain ⟨es, hu, hp⟩ := hempty.refused (hcrypt.trans_le hroom)
        (show writeLimit < _ + (w.initial u).length by rw [hcrypt]; omega)
      rw [← hstart] at hu hp
      exact hp (h (.sendSync :: es) ⟨trivial, hu⟩).2
    · have hrefused : ((run Sync.step (Sync.start w u writeCh) []).act .sendSync).2 =
          some .cryptSetup := by
        simp [Sync.act, Sync.sendSync, Sync.start, enqueue, hroom]
      exact not_passes hrefused (h [.sendSync] ⟨trivial, trivial⟩)
  · intro hsmall es hu
    have hstart : (Sync.start w u writeCh).Room := by
      refine ⟨?_, fun _ => ⟨rfl, rfl, rfl, rfl, rfl, by simp [Sync.start, Line.pending, Worker.hand]⟩⟩
      simp only [Sync.start, Sync.load, SyncPhase.load, Line.load, Worker.unwritten,
        filterMap_nil, length_nil]
      omega
    have hstep : ∀ s e, s.Room → Undisturbed s e → Passes s e ∧ (Sync.step s e).Room :=
      fun s e h hu => h.step e hu
    exact Along.of_inv hstep hstart hu

/-- A server with 61 channels. -/
def manyChannels : World := ⟨List.range 61, [], ⟨[("local", 1)], []⟩⟩

def loneClient : User := ⟨⟨7, 0, false, "", false, false, 0, 0, [], []⟩, 1, 1, 1, "alice"⟩

/-- The client cannot always join: if the worker does not get a turn, `SendInitial` is refused, and
if the writer of the connection does not, a write of the worker is. -/
theorem lone_client_refused :
    ((run Sync.step (Sync.start manyChannels loneClient []) (List.replicate 65 .sendSync)).act
      .sendSync).2 = some (.sendInitial .overflow) ∧
    ((run Sync.step (Sync.start manyChannels loneClient [])
      (List.flatten [[.sendSync],
        (List.replicate 63 [.sendSync, .work true, .work true, .work true, .work true]).flatten,
        [.sendSync, .work true, .work true]])).act (.work true)).2 = some .writeControl := by
  decide +kernel

end MumbleServer.Control

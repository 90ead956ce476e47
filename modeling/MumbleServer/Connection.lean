import MumbleServer.Runs
import MumbleServer.Slots

/-! # One connection and its goroutines

`internal/connection/conn.go`: any number of goroutines queue messages, make the connection Active,
wait for the queue and close the connection, while the write loop takes messages from the queue and
writes them.  A goroutine is in `routines`, where it stays when it has returned; an event lets it
make its next access to what the goroutines share.

`pending` counts what has been queued and is not written.  It is raised before a message is queued
and lowered after it was written, whether that has failed or not. -/

namespace MumbleServer.Connection

/-- `State`. -/
inductive ConnState
  | authenticating
  | active
  | closed
deriving DecidableEq

/-- The capacity of `writeCh`. -/
def queueSize : ℕ := 64

variable {Req : Type}

/-- Where a goroutine is: the access that it makes next, or how it has returned. -/
inductive Routine (Req : Type)
  /-- `enqueue`: `done` is looked at, the counter is raised, the request is queued. -/
  | checking (req : Req)
  | counting (req : Req)
  | sending (req : Req)
  /-- There was no room, and the counter is lowered again. -/
  | undoing
  | queued
  | refused
  /-- `SetActive`. -/
  | activating
  /-- `CloseAfterFlush` looks at the state and waits for the counter. -/
  | peeking
  | flushing
  /-- `Close`: the state is looked at and set, `done` is closed, the socket is closed, `onClose` is
  called. -/
  | closing
  | ending
  | disconnecting
  | calling
  /-- `AwaitFlush`, with the calls of `enqueue` that had returned without an error before it. -/
  | awaiting (owed : List ℕ)
  | flushed (owed : List ℕ)
  | expired
  | returned
deriving DecidableEq

/-- The write loop. -/
inductive Writer (Req : Type)
  | unstarted
  | idle
  | writing (id : ℕ) (req : Req)
  /-- The write is over and the counter is lowered next. -/
  | wrote
  | stopped
deriving DecidableEq

structure Conn (Req : Type) where
  state : ConnState := .authenticating
  /-- `writeCh`, each request with the goroutine that has queued it. -/
  queue : List (ℕ × Req) := []
  pending : Int := 0
  /-- How often `done` was closed. -/
  doneCloses : ℕ := 0
  socketClosed : Bool := false
  /-- There is an `onClose`. -/
  onClose : Bool := true
  /-- How often `onClose` was called. -/
  callbacks : ℕ := 0
  writer : Writer Req := .unstarted
  /-- What was written to the socket without an error. -/
  written : List ℕ := []
  routines : List (Routine Req) := []
deriving DecidableEq

/-- The methods that goroutines call. -/
inductive Op (Req : Type)
  | enqueue (req : Req)
  | setActive
  | close
  | closeAfterFlush
  | awaitFlush
deriving DecidableEq

inductive Event (Req : Type)
  /-- A goroutine calls a method. -/
  | call (op : Op Req)
  /-- A goroutine makes its next access; `timeout` if its deadline has passed. -/
  | advance (i : ℕ) (timeout : Bool)
  /-- `Run` starts the write loop, which takes a request, writes it, lowers the counter, or sees
  that `done` is closed. -/
  | start
  | take
  | write (ok : Bool)
  | release
  | stop
deriving DecidableEq

namespace Conn

/-- The calls of `enqueue` that have returned without an error. -/
def accepted (s : Conn Req) : List ℕ :=
  (List.range s.routines.length).filter fun i =>
    match s.routines[i]? with
    | some .queued => true
    | _ => false

/-- The first access of a method. -/
def first (s : Conn Req) : Op Req → Routine Req
  | .enqueue req => .checking req
  | .setActive => .activating
  | .close => .closing
  | .closeAfterFlush => .peeking
  | .awaitFlush => .awaiting s.accepted

def put (s : Conn Req) (i : ℕ) (r : Routine Req) : Conn Req :=
  { s with routines := s.routines.set i r }

/-- The next access of goroutine `i`. -/
def move (s : Conn Req) (i : ℕ) (timeout : Bool) : Routine Req → Conn Req
  | .checking req => s.put i (if s.doneCloses = 0 then .counting req else .refused)
  | .counting req => { s with pending := s.pending + 1 }.put i (.sending req)
  | .sending req =>
    if s.queue.length < queueSize then { s with queue := s.queue ++ [(i, req)] }.put i .queued
    else s.put i .undoing
  | .undoing => { s with pending := s.pending - 1 }.put i .refused
  | .activating => { s with state := .active }.put i .returned
  | .peeking => s.put i (if s.state = .closed then .closing else .flushing)
  | .flushing => if 0 < s.pending ∧ timeout = false then s else s.put i .closing
  | .closing =>
    if s.state = .closed then s.put i .returned
    else { s with state := .closed }.put i .ending
  | .ending => { s with doneCloses := s.doneCloses + 1 }.put i .disconnecting
  | .disconnecting =>
    { s with socketClosed := true }.put i (if s.onClose then .calling else .returned)
  | .calling => { s with callbacks := s.callbacks + 1 }.put i .returned
  | .awaiting owed =>
    if 0 < s.pending then if timeout then s.put i .expired else s else s.put i (.flushed owed)
  | .queued | .refused | .flushed _ | .expired | .returned => s

/-- A write succeeds if the socket takes it and is not closed. -/
def writes (s : Conn Req) (ok : Bool) : Bool := ok && !s.socketClosed

def writeLoop (s : Conn Req) : Event Req → Conn Req
  | .start => match s.writer with
      | .unstarted => { s with writer := .idle }
      | _ => s
  | .take => match s.writer, s.queue with
      | .idle, (id, req) :: rest => { s with writer := .writing id req, queue := rest }
      | _, _ => s
  | .write ok => match s.writer with
      | .writing id _ =>
        { s with writer := .wrote, written := if s.writes ok then id :: s.written else s.written }
      | _ => s
  | .release => match s.writer with
      | .wrote => { s with writer := .idle, pending := s.pending - 1 }
      | _ => s
  | .stop => match s.writer with
      | .idle => if s.doneCloses = 0 then s else { s with writer := .stopped }
      | _ => s
  | _ => s

/-- To close a channel twice is a panic, which ends the process. -/
def panicked (s : Conn Req) : Bool := decide (1 < s.doneCloses)

def step (s : Conn Req) (e : Event Req) : Conn Req :=
  if s.panicked then s
  else
    match e with
    | .call op => { s with routines := s.routines ++ [s.first op] }
    | .advance i timeout =>
      match s.routines[i]? with
      | none => s
      | some r => s.move i timeout r
    | e => s.writeLoop e

end Conn

/-! ### Closing -/

/-- The goroutine has set the state to Closed and has not called `onClose`. -/
def Routine.inClose : Routine Req → Bool
  | .ending | .disconnecting | .calling => true
  | _ => false

/-- How often `done` was closed when a goroutine is there in `Close`. -/
def Routine.closes : Routine Req → ℕ
  | .ending => 0
  | _ => 1

/-- Nobody is in the middle of `Close`. -/
def Conn.Rested (s : Conn Req) : Prop :=
  ∀ (j : ℕ) (r : Routine Req), s.routines[j]? = some r → r.inClose = false

/-- Goroutine `i` is the only one in the middle of `Close`. -/
structure Conn.ClosedBy (s : Conn Req) (i : ℕ) (r : Routine Req) : Prop where
  at_i : s.routines[i]? = some r
  inClose : r.inClose = true
  only : ∀ (j : ℕ) (r' : Routine Req), s.routines[j]? = some r' → r'.inClose = true → j = i

/-- A connection is open, or one `Close` is under way, or it is over. -/
inductive Closing (s : Conn Req) : Prop
  | live (hstate : s.state ≠ .closed) (hrest : s.Rested) (hdone : s.doneCloses = 0)
      (hcalls : s.callbacks = 0)
  | under (i : ℕ) (r : Routine Req) (hstate : s.state = .closed) (hby : s.ClosedBy i r)
      (hdone : s.doneCloses = r.closes) (hcalls : s.callbacks = 0)
      (hcalling : r = .calling → s.onClose = true)
  | done (hstate : s.state = .closed) (hrest : s.Rested) (hdone : s.doneCloses = 1)
      (hcalls : s.callbacks = if s.onClose then 1 else 0)

/-- A step that has nothing to do with closing. -/
structure Beside (s s' : Conn Req) : Prop where
  state : s'.state = .closed ↔ s.state = .closed
  doneCloses : s'.doneCloses = s.doneCloses
  callbacks : s'.callbacks = s.callbacks
  onClose : s'.onClose = s.onClose
  routines : ∀ (j : ℕ) (r : Routine Req), r.inClose = true →
    (s'.routines[j]? = some r ↔ s.routines[j]? = some r)

section closing
variable {s s' t : Conn Req} {i : ℕ} {r r' : Routine Req}

theorem Beside.refl (s : Conn Req) : Beside s s := ⟨Iff.rfl, rfl, rfl, rfl, fun _ _ _ => Iff.rfl⟩

theorem Beside.rested (h : Beside s s') (hrest : s.Rested) : s'.Rested := by
  intro j r hr
  by_contra hin
  rw [Bool.not_eq_false] at hin
  have hold := hrest j r ((h.routines j r hin).mp hr)
  rw [hold] at hin
  cases hin

theorem Beside.closedBy (h : Beside s s') (hby : s.ClosedBy i r) : s'.ClosedBy i r where
  at_i := (h.routines i r hby.inClose).mpr hby.at_i
  inClose := hby.inClose
  only j r' hr' hin := hby.only j r' ((h.routines j r' hin).mp hr') hin

theorem Closing.beside (hs : Closing s) (h : Beside s s') : Closing s' := by
  cases hs with
  | live hstate hrest hdone hcalls =>
    exact .live (fun hc => hstate (h.state.mp hc)) (h.rested hrest) (h.doneCloses.trans hdone)
      (h.callbacks.trans hcalls)
  | under i r hstate hby hdone hcalls hcalling =>
    exact .under i r (h.state.mpr hstate) (h.closedBy hby) (h.doneCloses.trans hdone)
      (h.callbacks.trans hcalls) fun hr => h.onClose.trans (hcalling hr)
  | done hstate hrest hdone hcalls =>
    refine .done (h.state.mpr hstate) (h.rested hrest) (h.doneCloses.trans hdone) ?_
    rw [h.callbacks, h.onClose, hcalls]

theorem beside_put (hi : s.routines[i]? = some r)
    (hr : r.inClose = false) (hr' : r'.inClose = false)
    (ht : t.routines = s.routines) (hstate : t.state = .closed ↔ s.state = .closed)
    (hdone : t.doneCloses = s.doneCloses) (hcalls : t.callbacks = s.callbacks)
    (honClose : t.onClose = s.onClose) : Beside s (t.put i r') where
  state := hstate
  doneCloses := hdone
  callbacks := hcalls
  onClose := honClose
  routines j q hq := by
    show (t.routines.set i r')[j]? = some q ↔ _
    rw [ht]
    constructor
    · intro h
      rcases getElem?_set_cases h with ⟨-, rfl⟩ | ⟨-, hold⟩
      · rw [hr'] at hq
        cases hq
      · exact hold
    · intro h
      have hne : i ≠ j := by
        rintro rfl
        rw [hi] at h
        obtain rfl := Option.some.inj h
        rw [hr] at hq
        cases hq
      rw [List.getElem?_set_ne hne, h]

theorem closedBy_put (hby : s.ClosedBy i r) (hr' : r'.inClose = true)
    (ht : t.routines = s.routines) : (t.put i r').ClosedBy i r' where
  at_i := by
    show (t.routines.set i r')[i]? = some r'
    rw [ht, List.getElem?_set_self (List.getElem?_eq_some_iff.mp hby.at_i).1]
  inClose := hr'
  only j q hq hin := by
    have hq : (t.routines.set i r')[j]? = some q := hq
    rw [ht] at hq
    rcases getElem?_set_cases hq with ⟨rfl, -⟩ | ⟨-, hold⟩
    · rfl
    · exact hby.only j q hold hin

theorem rested_put (hby : s.ClosedBy i r) (hr' : r'.inClose = false)
    (ht : t.routines = s.routines) : (t.put i r').Rested := by
  intro j q hq
  have hq : (t.routines.set i r')[j]? = some q := hq
  rw [ht] at hq
  rcases getElem?_set_cases hq with ⟨-, rfl⟩ | ⟨hne, hold⟩
  · exact hr'
  · by_contra hin
    exact hne (hby.only j q hold (by simpa using hin))

theorem Closing.under_of_inClose (hs : Closing s)
    (hi : s.routines[i]? = some r) (hr : r.inClose = true) :
    s.state = .closed ∧ s.ClosedBy i r ∧ s.doneCloses = r.closes ∧ s.callbacks = 0 ∧
      (r = .calling → s.onClose = true) := by
  have hrested : ¬s.Rested := fun h => by
    rw [h i r hi] at hr
    cases hr
  cases hs with
  | live _ hrest _ _ | done _ hrest _ _ => exact absurd hrest hrested
  | under j q hstate hby hdone hcalls hcalling =>
    obtain rfl := hby.only i r hi hr
    obtain rfl : r = q := Option.some.inj (hi.symm.trans hby.at_i)
    exact ⟨hstate, hby, hdone, hcalls, hcalling⟩

/-- Every `SetActive` finds a connection that is not closed. -/
def ActiveInTime (s : Conn Req) : Event Req → Prop
  | .advance i _ => s.routines[i]? = some .activating → s.state ≠ .closed
  | _ => True

instance [DecidableEq Req] (s : Conn Req) : ∀ e, Decidable (ActiveInTime s e)
  | .advance i _ =>
    inferInstanceAs (Decidable (s.routines[i]? = some .activating → s.state ≠ .closed))
  | .call _ | .start | .take | .write _ | .release | .stop => isTrue trivial

theorem Closing.move (hs : Closing s) {timeout : Bool}
    (hi : s.routines[i]? = some r) (hactive : r = .activating → s.state ≠ .closed) :
    Closing (s.move i timeout r) := by
  cases r with
  | checking req | peeking =>
    refine hs.beside (beside_put hi rfl ?_ rfl Iff.rfl rfl rfl rfl)
    split_ifs <;> rfl
  | counting req | undoing => exact hs.beside (beside_put hi rfl rfl rfl Iff.rfl rfl rfl rfl)
  | sending req =>
    dsimp only [Conn.move]
    split_ifs <;> exact hs.beside (beside_put hi rfl rfl rfl Iff.rfl rfl rfl rfl)
  | activating =>
    have hopen := hactive rfl
    exact hs.beside (beside_put hi rfl rfl rfl
      ⟨fun h => (by cases h), fun h => absurd h hopen⟩ rfl rfl rfl)
  | flushing =>
    dsimp only [Conn.move]
    split_ifs
    · exact hs
    · exact hs.beside (beside_put hi rfl rfl rfl Iff.rfl rfl rfl rfl)
  | closing =>
    dsimp only [Conn.move]
    split_ifs with hstate
    · exact hs.beside (beside_put hi rfl rfl rfl Iff.rfl rfl rfl rfl)
    · -- the `Close` that counts
      cases hs with
      | under _ _ hc _ _ _ _ | done hc _ _ _ => exact absurd hc hstate
      | live _ hrest hdone hcalls =>
        refine .under i .ending rfl ⟨?_, rfl, fun j q hq hin => ?_⟩ hdone hcalls
          fun h => by cases h
        · exact List.getElem?_set_self (List.getElem?_eq_some_iff.mp hi).1
        · rcases getElem?_set_cases hq with ⟨rfl, -⟩ | ⟨-, hold⟩
          · rfl
          · rw [hrest j q hold] at hin
            cases hin
  | ending =>
    obtain ⟨hstate, hby, hdone, hcalls, -⟩ := hs.under_of_inClose hi rfl
    exact .under i .disconnecting hstate (closedBy_put hby rfl rfl)
      (congrArg (· + 1) hdone) hcalls fun h => by cases h
  | disconnecting =>
    obtain ⟨hstate, hby, hdone, hcalls, -⟩ := hs.under_of_inClose hi rfl
    dsimp only [Conn.move]
    split_ifs with honClose
    · exact .under i .calling hstate (closedBy_put hby rfl rfl) hdone hcalls fun _ => honClose
    · refine .done hstate (rested_put hby rfl rfl) hdone (hcalls.trans ?_)
      rw [if_neg]
      exact honClose
  | calling =>
    obtain ⟨hstate, hby, hdone, hcalls, hcalling⟩ := hs.under_of_inClose hi rfl
    refine .done hstate (rested_put hby rfl rfl) hdone ?_
    show s.callbacks + 1 = if s.onClose then 1 else 0
    rw [hcalls, hcalling rfl]
    rfl
  | awaiting owed =>
    dsimp only [Conn.move]
    split_ifs
    · exact hs.beside (beside_put hi rfl rfl rfl Iff.rfl rfl rfl rfl)
    · exact hs
    · exact hs.beside (beside_put hi rfl rfl rfl Iff.rfl rfl rfl rfl)
  | queued | refused | flushed owed | expired | returned => exact hs

theorem beside_writeLoop (s : Conn Req) (e : Event Req) : Beside s (s.writeLoop e) := by
  have hframe : ∀ (queue : List (ℕ × Req)) (pending : Int) (writer : Writer Req)
      (written : List ℕ), Beside s { s with
        queue := queue, pending := pending, writer := writer, written := written } :=
    fun _ _ _ _ => ⟨Iff.rfl, rfl, rfl, rfl, fun _ _ _ => Iff.rfl⟩
  cases e with
  | call op | advance i timeout => exact .refl s
  | start | take | write ok | release =>
    dsimp only [Conn.writeLoop]
    split
    · exact hframe _ _ _ _
    · exact .refl s
  | stop =>
    dsimp only [Conn.writeLoop]
    split
    · split_ifs
      · exact .refl s
      · exact hframe _ _ _ _
    · exact .refl s

theorem beside_call (s : Conn Req) (op : Op Req) :
    Beside s { s with routines := s.routines ++ [s.first op] } where
  state := Iff.rfl
  doneCloses := rfl
  callbacks := rfl
  onClose := rfl
  routines j r hr := by
    constructor
    · intro h
      rcases getElem?_concat_cases h with ⟨-, rfl⟩ | hold
      · cases op <;> cases hr
      · exact hold
    · exact getElem?_concat _

theorem Closing.step (hs : Closing s) {e : Event Req} (he : ActiveInTime s e) :
    Closing (s.step e) := by
  unfold Conn.step
  split_ifs
  · exact hs
  · cases e with
    | call op => exact hs.beside (beside_call s op)
    | advance i timeout =>
      dsimp only
      cases hi : s.routines[i]? with
      | none => exact hs
      | some r => exact hs.move hi fun h => he (h ▸ hi)
    | start | take | write ok | release | stop => exact hs.beside (beside_writeLoop s _)

/-- A step out of Closed is a `SetActive`. -/
theorem state_step {e : Event Req} (he : ActiveInTime s e) (hc : s.state = .closed) :
    (s.step e).state = .closed := by
  unfold Conn.step
  split_ifs
  · exact hc
  · cases e with
    | call op => exact hc
    | advance i timeout =>
      dsimp only
      cases hi : s.routines[i]? with
      | none => exact hc
      | some r =>
        cases r with
        | activating => exact absurd hc (he hi)
        | _ =>
          dsimp only [Conn.move]
          try split_ifs
          all_goals exact hc
    | start | take | write ok | release | stop => exact (beside_writeLoop s _).state.mpr hc

end closing

def newConn (Req : Type) (onClose : Bool) : Conn Req := { onClose := onClose }

theorem closing_new (onClose : Bool) : Closing (newConn Req onClose) :=
  .live (fun h => by cases h) (fun _ _ h => by cases h) rfl rfl

/-- **Closed is final.** If every `SetActive` finds a connection that is not closed, then Closed
stays Closed, `done` is closed at most once and `onClose` is called at most once; and when nobody is
in the middle of `Close` any more, both have happened. -/
theorem closed_final (onClose : Bool) (es : List (Event Req))
    (h : Along Conn.step ActiveInTime (newConn Req onClose) es) :
    Along Conn.step (fun s e => s.state = .closed → (s.step e).state = .closed)
      (newConn Req onClose) es ∧
    ∀ s, s = run Conn.step (newConn Req onClose) es →
      s.doneCloses ≤ 1 ∧ s.callbacks ≤ 1 ∧
      (s.state = .closed → s.Rested →
        s.doneCloses = 1 ∧ s.callbacks = if s.onClose then 1 else 0) := by
  have hkeeps : ∀ (s : Conn Req) e, Closing s → ActiveInTime s e →
      (s.state = .closed → (s.step e).state = .closed) ∧ Closing (s.step e) :=
    fun s e hs he => ⟨state_step he, hs.step he⟩
  refine ⟨Along.of_inv hkeeps (closing_new onClose) h, fun s hs => ?_⟩
  have hclosing : Closing s := by
    rw [hs]
    exact run_inv (fun s e hs he => (hkeeps s e hs he).2) (closing_new onClose) h
  cases hclosing with
  | live hstate _ hdone hcalls =>
    exact ⟨by omega, by omega, fun hc => absurd hc hstate⟩
  | under i r _ hby hdone hcalls _ =>
    refine ⟨?_, by omega, fun _ hrest => ?_⟩
    · rw [hdone]
      unfold Routine.closes
      split <;> omega
    · have hout := hrest i r hby.at_i
      rw [hby.inClose] at hout
      cases hout
  | done _ _ hdone hcalls =>
    refine ⟨by omega, ?_, fun _ _ => ⟨hdone, hcalls⟩⟩
    rw [hcalls]
    split_ifs <;> omega

/-- Two goroutines close a connection, one of them after the queue is empty, while a message is
queued and the connection becomes Active. -/
def orderly : List (Event Unit) :=
  [.call .setActive, .call .closeAfterFlush, .call .close, .call (.enqueue ()), .advance 0 false,
    .advance 1 false, .advance 3 false, .advance 2 false, .advance 1 false, .advance 1 false,
    .advance 2 false, .advance 2 false, .advance 2 false]

theorem closed_final_orderly :
    Along Conn.step ActiveInTime (newConn Unit true) orderly ∧
    (run Conn.step (newConn Unit true) orderly).doneCloses ≤ 1 ∧
    (run Conn.step (newConn Unit true) orderly).state = .closed ∧
    (run Conn.step (newConn Unit true) orderly).callbacks = 1 := by
  have htime : Along Conn.step ActiveInTime (newConn Unit true) orderly := by decide
  obtain ⟨-, hfinal⟩ := closed_final true orderly htime
  exact ⟨htime, (hfinal _ rfl).1, by decide, by decide⟩

/-- A goroutine closes the connection, another one makes it Active, and the next one to close it
closes `done` again. -/
def overtaken : List (Event Unit) :=
  [.call .close, .call .setActive, .call .close, .advance 0 false, .advance 0 false,
    .advance 1 false, .advance 2 false, .advance 2 false]

theorem closed_not_final :
    (run Conn.step (newConn Unit true) (overtaken.take 5)).state = .closed ∧
    (run Conn.step (newConn Unit true) (overtaken.take 6)).state = .active ∧
    (run Conn.step (newConn Unit true) overtaken).doneCloses = 2 := by
  decide

end MumbleServer.Connection

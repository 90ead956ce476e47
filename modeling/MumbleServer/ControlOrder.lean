import MumbleServer.ControlQueue
import MumbleServer.Runs

/-! # The control stream of a session

`ControlTransport` for one session: goroutines call its operations in any order, each queue has its
worker, and the sink may take any time and fail at any write.  A call looks the queue up, works on
it under its lock, and `CommitSync` and `close` then wait for the worker; between these steps
anything else may happen.  `BeginSync` makes a new queue with a sink of its own once the last one
was taken away, so a session may have several, of which old ones still have calls and a worker.

The state of the session in the registry moves on by `CommitSync`, and by whatever else closes,
unbinds or activates it; it never moves back to syncing, as a generation is bound once.  The
transition lock of the registry is not used here: the results hold without it. -/

namespace MumbleServer.Control

open List Option

variable {M : Type}

/-! ### Calls -/

inductive Op (M : Type) where
  | sendInitial (m : M)
  | send (m : M)
  | commitSync
  /-- `SendThenClose`, and `CloseAfterFlush` without a message. -/
  | close (final : Option M)
  | abortSync
  | detach

/-- Where a call stands; `j` is the queue it has found. -/
inductive Phase where
  /-- `withQueue` looks for the queue, or `take` takes it away. -/
  | lookup
  | locked (j : ℕ)
  /-- `await`. -/
  | waiting (j : ℕ)
  /-- `withTransition` looks whether the session is bound. -/
  | checking (j : ℕ)
  | committing (j : ℕ)
  | stopping (j : ℕ)
  /-- The deferred `take` of `close`. -/
  | taking (r : Except Error Unit)
  | returned (r : Except Error Unit)

structure Call (M : Type) where
  op : Op M
  phase : Phase

/-- The operation under the lock of the queue; `i` is the number of the call. -/
def Op.start (op : Op M) (i : ℕ) (state : SessionState) (l : Line M) : Line M × Except Error Unit :=
  match op with
  | .sendInitial m => l.sendInitial state m
  | .send m => l.send state m
  | .commitSync => l.startCommit state i
  | .close final => l.startClose final i
  | .abortSync => (l, .ok ())
  | .detach => (l, .ok ())

/-- Where a call goes after the work under the lock. -/
def Op.started (op : Op M) (j : ℕ) (r : Except Error Unit) : Phase :=
  match op, r with
  | .commitSync, .ok () => .waiting j
  | .close _, .ok () => .waiting j
  | _, r => .returned r

/-- Where a call goes when it has waited, with the outcome. -/
def Op.awaited (op : Op M) (j : ℕ) (r : Except Error Unit) : Phase :=
  match op, r with
  | .commitSync, .ok () => .checking j
  | .close _, r => .taking r
  | _, r => .returned r

/-! ### The transport -/

/-- The transport as far as one session is concerned: its state if it is bound, the queue in the
map, all queues that were made, and the calls. -/
structure Transport (M : Type) where
  state : Option SessionState
  current : Option ℕ := none
  lines : List (Line M) := []
  calls : List (Call M) := []

/-- Which case of the `select` in `await` is taken. -/
inductive Wake where
  | done
  | stop
  | deadline

inductive Event (M : Type) where
  | beginSync (limit : ℕ)
  | call (op : Op M)
  /-- A call makes its next step. -/
  | step (i : ℕ) (wake : Wake)
  /-- A worker makes its next access; `ok` is the answer of the sink. -/
  | work (j : ℕ) (ok : Bool)
  /-- The registry moves the session on. -/
  | commitActive
  | beginClose
  | unbind

namespace Transport
variable (t : Transport M)

def setLine (j : ℕ) (l : Line M) : Transport M := { t with lines := t.lines.set j l }

def setPhase (i : ℕ) (c : Call M) (phase : Phase) : Transport M :=
  { t with calls := t.calls.set i { c with phase := phase } }

def beginSync (limit : ℕ) : Transport M :=
  if limit < 1 ∨ t.state ≠ some .syncing ∨ t.current.isSome then t
  else { t with
    lines := t.lines ++ [{ cs := { limit := limit } }]
    current := some t.lines.length }

def lookup (i : ℕ) (c : Call M) : Transport M :=
  match c.op, t.current with
  | .abortSync, none => t.setPhase i c (.returned (.error .staleSession))
  | .detach, none => t.setPhase i c (.returned (.ok ()))
  | .abortSync, some j => { t with current := none }.setPhase i c (.stopping j)
  | .detach, some j => { t with current := none }.setPhase i c (.stopping j)
  | _, none => t.setPhase i c (.returned (.error .staleSession))
  | _, some j =>
    t.setPhase i c (if t.state.isSome then .locked j else .returned (.error .staleSession))

/-- `await`, if the case is ready. -/
def await (i : ℕ) (c : Call M) (j : ℕ) (l : Line M) : Wake → Transport M
  | .done =>
    match l.answers.lookup i with
    | none => t
    | some none => t.setPhase i c (c.op.awaited j (.ok ()))
    | some (some err) => t.setPhase i c (c.op.awaited j (.error err))
  | .stop =>
    if l.cs.stopped then t.setPhase i c (c.op.awaited j (.error (l.cs.failed.getD .closed))) else t
  | .deadline =>
    (t.setLine j (l.fail .deadline)).setPhase i c (c.op.awaited j (.error .deadline))

/-- Work on a queue. -/
def withLine (j : ℕ) (f : Line M → Transport M) : Transport M :=
  match t.lines[j]? with
  | none => t
  | some l => f l

/-- The operation under the lock of the queue. -/
def start (i : ℕ) (c : Call M) (j : ℕ) (l : Line M) : Transport M :=
  match t.state with
  | none => t.setPhase i c (.returned (.error .staleSession))
  | some state =>
    (t.setLine j (c.op.start i state l).1).setPhase i c (c.op.started j (c.op.start i state l).2)

/-- The last step of `CommitSync`. -/
def commit (i : ℕ) (c : Call M) (j : ℕ) (l : Line M) : Transport M :=
  match l.finishCommit t.state with
  | (l, .ok ()) => { t.setLine j l with state := some .active }.setPhase i c (.returned (.ok ()))
  | (l, .error err) => (t.setLine j l).setPhase i c (.returned (.error err))

def stepCall (i : ℕ) (c : Call M) (wake : Wake) : Transport M :=
  match c.phase with
  | .lookup => t.lookup i c
  | .locked j => t.withLine j fun l => t.start i c j l
  | .waiting j => t.withLine j fun l => t.await i c j l wake
  | .checking j =>
    t.setPhase i c (if t.state.isSome then .committing j else .returned (.error .staleSession))
  | .committing j => t.withLine j fun l => t.commit i c j l
  | .stopping j => t.withLine j fun l => (t.setLine j l.stop).setPhase i c (.returned (.ok ()))
  | .taking r => { t with current := none }.setPhase i c (.returned r)
  | .returned _ => t

def step : Event M → Transport M
  | .beginSync limit => t.beginSync limit
  | .call op => { t with calls := t.calls ++ [⟨op, .lookup⟩] }
  | .step i wake =>
    match t.calls[i]? with
    | none => t
    | some c => t.stepCall i c wake
  | .work j ok => t.withLine j fun l => t.setLine j (l.work ok)
  | .commitActive =>
    { t with state := t.state.map fun s => if s = .syncing then .active else s }
  | .beginClose => { t with state := t.state.map fun _ => .closing }
  | .unbind => { t with state := none }

end Transport

/-- A session that was just bound. -/
def Transport.bound : Transport M := { state := some .syncing }

/-- If the event is the last step of a `CommitSync`, the deferred messages fit in the queue. -/
def SpliceFits (t : Transport M) (e : Event M) : Prop :=
  ∀ i wake c j l, e = .step i wake → t.calls[i]? = some c → c.phase = .committing j →
    t.lines[j]? = some l → (l.finishCommit t.state).2 ≠ .error .overflow

/-! ### What a step keeps -/

/-- How a queue goes on: answers stay, and once it is closed nothing more is accepted. -/
structure Line.Next (l l' : Line M) : Prop where
  answers : l.answers ≠ [] → l'.answers ≠ []
  closed : l.cs.closed = true → l'.cs.closed = true ∧ l'.log = l.log

section lines
variable {l l' l'' : Line M}

theorem Line.Next.refl (l : Line M) : l.Next l := ⟨id, fun h => ⟨h, rfl⟩⟩

theorem Line.Next.trans (h : l.Next l') (h' : l'.Next l'') : l.Next l'' := by
  refine ⟨fun ha => h'.answers (h.answers ha), fun hc => ?_⟩
  obtain ⟨hc', hlog⟩ := h.closed hc
  obtain ⟨hc'', hlog'⟩ := h'.closed hc'
  exact ⟨hc'', hlog'.trans hlog⟩

theorem Line.next_fail (l : Line M) (err : Error) : l.Next (l.fail err) :=
  ⟨id, fun h => ⟨Session.failLocked_closed (fun hc => by simp [h] at hc) err, rfl⟩⟩

theorem Line.next_stop (l : Line M) : l.Next l.stop := ⟨id, fun _ => ⟨rfl, rfl⟩⟩

theorem Line.next_record (l : Line M) {r : Session M × Except Error Unit} {accept : Log M → Log M}
    (h : l.cs.closed = true → ∃ err, r.2 = .error err ∧ r.1.closed = true) :
    l.Next (l.record r accept).1 := by
  refine ⟨id, fun hc => ?_⟩
  obtain ⟨err, hr, hclosed⟩ := h hc
  exact ⟨hclosed, by simp [Line.record, hr]⟩

theorem Line.next_start (l : Line M) (op : Op M) (i : ℕ) (state : SessionState) :
    l.Next (op.start i state l).1 := by
  cases op with
  | sendInitial m => exact l.next_record fun hc => ⟨.closed, by simp [Session.sendInitial, hc]⟩
  | send m => exact l.next_record fun hc => ⟨.closed, by simp [Session.send, hc]⟩
  | commitSync => exact l.next_record fun hc => ⟨.invalidState, by simp [Session.startCommit, hc]⟩
  | close final => exact l.next_record fun hc => ⟨.closed, by simp [Session.startClose, hc]⟩
  | abortSync | detach => exact .refl l

theorem Line.next_finishCommit (l : Line M) (state : Option SessionState) :
    l.Next (l.finishCommit state).1 :=
  l.next_record fun hc => ⟨.invalidState, by simp [Session.finishCommit, hc]⟩

theorem Line.next_work (l : Line M) (ok : Bool) : l.Next (l.work ok) := by
  unfold Line.work
  cases l.worker with
  | idle =>
    dsimp only
    split_ifs
    · split
      · exact .refl l
      · exact ⟨id, fun hc => ⟨hc, rfl⟩⟩
    · exact ⟨id, fun hc => ⟨hc, rfl⟩⟩
    · exact .refl l
  | holding cmd =>
    dsimp only
    split_ifs
    · exact ⟨id, fun hc => ⟨hc, rfl⟩⟩
    · split
      · exact ⟨id, fun hc => ⟨hc, rfl⟩⟩
      · exact ⟨id, fun hc => ⟨hc, rfl⟩⟩
  | writing cmd m | flushing cmd => exact ⟨id, fun hc => ⟨hc, rfl⟩⟩
  | failing cmd err => exact ⟨id, (l.next_fail err).closed⟩
  | answering cmd err =>
    refine ⟨fun ha => ?_, fun hc => ⟨hc, rfl⟩⟩
    exact fun hnil => ha (append_eq_nil_iff.mp hnil).1
  | exited => exact .refl l

theorem Line.Inv.start {state : SessionState} (h : l.Inv (some state)) (op : Op M) (i : ℕ) :
    (op.start i state l).1.Inv (some state) := by
  cases op with
  | sendInitial m => exact h.sendInitial m
  | send m => exact h.send m
  | commitSync => exact h.startCommit i
  | close final => exact h.startClose final i
  | abortSync => exact h
  | detach => exact h

end lines

/-- The queue whose barrier the call has seen answered. -/
def Phase.passed : Phase → Option ℕ
  | .checking j => some j
  | .committing j => some j
  | _ => none

/-- The invariant: that of every queue, and a call that has passed its barrier has an answer. -/
structure Transport.Inv (t : Transport M) : Prop where
  lines : ∀ l ∈ t.lines, l.Inv t.state
  passed : ∀ (i : ℕ) (c : Call M) (j : ℕ), t.calls[i]? = some c → c.phase.passed = some j →
    ∃ l, t.lines[j]? = some l ∧ l.answers ≠ []

/-- `t'` comes after `t`: the invariant holds there, and every queue has gone on. -/
structure Transport.Keeps (t t' : Transport M) : Prop where
  inv : t'.Inv
  next : ∀ (j : ℕ) (l : Line M), t.lines[j]? = some l → ∃ l', t'.lines[j]? = some l' ∧ l.Next l'

section transport
variable {t t₀ : Transport M}
variable {j : ℕ} {l : Line M}

theorem Transport.Keeps.refl (h : t.Inv) : t.Keeps t := ⟨h, fun _ l hl => ⟨l, hl, .refl l⟩⟩

theorem Transport.Keeps.trans {t₁ t₂ : Transport M} (h : t.Keeps t₁) (h' : t₁.Keeps t₂) :
    t.Keeps t₂ := by
  refine ⟨h'.inv, fun j l hl => ?_⟩
  obtain ⟨l₁, hl₁, hn⟩ := h.next j l hl
  obtain ⟨l₂, hl₂, hn'⟩ := h'.next j l₁ hl₁
  exact ⟨l₂, hl₂, hn.trans hn'⟩

open Transport

theorem Transport.getElem?_setLine {j j' : ℕ} {l l' k : Line M} (hl : t.lines[j]? = some l)
    (hk : t.lines[j']? = some k) :
    (j' = j ∧ k = l ∧ (t.setLine j l').lines[j']? = some l') ∨
      (t.setLine j l').lines[j']? = some k := by
  unfold setLine
  by_cases hj : j' = j
  · subst hj
    rw [hl] at hk
    left
    refine ⟨rfl, (some.inj hk).symm, ?_⟩
    simp [(List.getElem?_eq_some_iff.mp hl).1]
  · right
    simpa [List.getElem?_set_ne (Ne.symm hj)] using hk

theorem Transport.Keeps.setLine (h : t₀.Keeps t) {l l' : Line M}
    (hl : t.lines[j]? = some l) (hinv : l'.Inv t.state) (hn : l.Next l') :
    t₀.Keeps (t.setLine j l') := by
  refine h.trans ⟨⟨fun k hk => ?_, fun i c j' hc hp => ?_⟩, fun j' k hk => ?_⟩
  · rcases mem_or_eq_of_mem_set hk with hk | rfl
    · exact h.inv.lines k hk
    · exact hinv
  · obtain ⟨k, hk, hans⟩ := h.inv.passed i c j' hc hp
    rcases getElem?_setLine hl hk with ⟨-, rfl, hset⟩ | hset
    · exact ⟨l', hset, hn.answers hans⟩
    · exact ⟨k, hset, hans⟩
  · rcases getElem?_setLine hl hk with ⟨-, rfl, hset⟩ | hset
    · exact ⟨l', hset, hn⟩
    · exact ⟨k, hset, .refl k⟩

theorem Transport.Keeps.setPhase (h : t₀.Keeps t) (i : ℕ) (c : Call M) {phase : Phase}
    (hp : ∀ j, phase.passed = some j → ∃ l, t.lines[j]? = some l ∧ l.answers ≠ []) :
    t₀.Keeps (t.setPhase i c phase) := by
  refine ⟨⟨h.inv.lines, fun i' c' j hc' hpassed => ?_⟩, h.next⟩
  unfold Transport.setPhase at hc'
  rw [getElem?_set] at hc'
  split_ifs at hc'
  · obtain rfl := some.inj hc'
    exact hp j hpassed
  · exact h.inv.passed i' c' j hc' hpassed

theorem Transport.Keeps.withState (h : t₀.Keeps t) {state : Option SessionState}
    (hs : state = some .syncing → t.state = some .syncing) : t₀.Keeps { t with state := state } :=
  ⟨⟨fun l hl => (h.inv.lines l hl).mono hs, h.inv.passed⟩, h.next⟩

theorem Transport.Keeps.withCurrent (h : t₀.Keeps t) (current : Option ℕ) :
    t₀.Keeps { t with current := current } :=
  ⟨⟨h.inv.lines, h.inv.passed⟩, h.next⟩

theorem Op.started_passed (op : Op M) (j : ℕ) (r : Except Error Unit) :
    (op.started j r).passed = none := by
  cases op <;> rcases r with _ | _ <;> rfl

theorem Op.awaited_passed {op : Op M} {j j' : ℕ} {r : Except Error Unit}
    (h : (op.awaited j r).passed = some j') : j' = j ∧ r = .ok () := by
  cases op with
  | commitSync =>
    rcases r with err | _
    · cases h
    · exact ⟨(some.inj h).symm, rfl⟩
  | _ => cases h

section
variable (h : t.Inv)
include h

theorem Transport.mem_of_line (hl : t.lines[j]? = some l) : l.Inv t.state :=
  h.lines l (mem_of_getElem? hl)

open Keeps

theorem Transport.keeps_lookup (i : ℕ) (c : Call M) : t.Keeps (t.lookup i c) := by
  unfold lookup
  split
  case h_6 =>
      refine (refl h).setPhase i c fun j hj => ?_
      split_ifs at hj <;> cases hj
  case h_3 => exact ((refl h).withCurrent none).setPhase i c fun _ hj => by cases hj
  case h_4 => exact ((refl h).withCurrent none).setPhase i c fun _ hj => by cases hj
  all_goals exact (refl h).setPhase i c fun _ hj => by cases hj

theorem Transport.keeps_start (i : ℕ) (c : Call M)
    (hl : t.lines[j]? = some l) : t.Keeps (t.start i c j l) := by
  unfold start
  cases hs : t.state with
  | none => exact (refl h).setPhase i c fun _ hj => by cases hj
  | some state =>
    have hinv := mem_of_line h hl
    rw [hs] at hinv
    refine ((refl h).setLine hl ?_ (l.next_start c.op i state)).setPhase i c fun j' hj => ?_
    · rw [hs]
      exact hinv.start c.op i
    · rw [Op.started_passed] at hj
      cases hj

theorem Transport.keeps_await (i : ℕ) (c : Call M)
    (hl : t.lines[j]? = some l) (wake : Wake) : t.Keeps (t.await i c j l wake) := by
  have hk := refl h
  cases wake with
  | done =>
    unfold await
    cases ha : l.answers.lookup i with
    | none => exact hk
    | some err =>
      cases err with
      | none =>
        refine hk.setPhase i c fun j' hj => ?_
        obtain ⟨rfl, -⟩ := Op.awaited_passed hj
        refine ⟨l, hl, fun hnil => ?_⟩
        rw [hnil] at ha
        cases ha
      | some err =>
        refine hk.setPhase i c fun j' hj => ?_
        cases (Op.awaited_passed hj).2
  | stop =>
    unfold await
    split_ifs
    · refine hk.setPhase i c fun j' hj => ?_
      cases (Op.awaited_passed hj).2
    · exact hk
  | deadline =>
    refine (hk.setLine hl ((mem_of_line h hl).fail .deadline) (l.next_fail .deadline)).setPhase i c
      fun j' hj => ?_
    cases (Op.awaited_passed hj).2

theorem Transport.keeps_commit (i : ℕ) (c : Call M)
    (hl : t.lines[j]? = some l) (hans : l.answers ≠ []) :
    (l.finishCommit t.state).2 ≠ .error .overflow ∧ t.Keeps (t.commit i c j l) := by
  obtain ⟨hfits, hok, hfail⟩ := (mem_of_line h hl).finishCommit hans
  have hn := l.next_finishCommit t.state
  refine ⟨hfits, ?_⟩
  unfold commit
  rcases hr : l.finishCommit t.state with ⟨l', err | _⟩
  · rw [hr] at hfail hn
    exact ((refl h).setLine hl (hfail (by simp)) hn).setPhase i c fun _ hj => by cases hj
  · rw [hr] at hok hn
    -- the other queues see the session become active first
    have hactive : t.Keeps { t with state := some .active } :=
      (refl h).withState fun hs => by cases hs
    exact (hactive.setLine hl (hok rfl) hn).setPhase i c fun _ hj => by cases hj

theorem Transport.keeps_withLine (j : ℕ) {f : Line M → Transport M}
    (hf : ∀ l, t.lines[j]? = some l → t.Keeps (f l)) : t.Keeps (t.withLine j f) := by
  unfold withLine
  cases hl : t.lines[j]? with
  | none => exact refl h
  | some l => exact hf l hl

theorem Transport.keeps_stepCall {i : ℕ} {c : Call M} (hc : t.calls[i]? = some c)
    (wake : Wake) : t.Keeps (t.stepCall i c wake) := by
  have hk := refl h
  unfold stepCall
  cases hp : c.phase with
  | lookup => exact keeps_lookup h i c
  | locked j => exact keeps_withLine h j fun l hl => keeps_start h i c hl
  | waiting j => exact keeps_withLine h j fun l hl => keeps_await h i c hl wake
  | checking j =>
    refine hk.setPhase i c fun j' hj => ?_
    have hj' : j = j' := by
      split_ifs at hj <;> cases hj
      rfl
    exact h.passed i c j' hc (by rw [hp, ← hj']; rfl)
  | committing j =>
    refine keeps_withLine h j fun l hl => ?_
    obtain ⟨k, hk', hans⟩ := h.passed i c j hc (by rw [hp]; rfl)
    rw [hl] at hk'
    obtain rfl := some.inj hk'
    exact (keeps_commit h i c hl hans).2
  | stopping j =>
    refine keeps_withLine h j fun l hl => ?_
    exact (hk.setLine hl (mem_of_line h hl).stop l.next_stop).setPhase i c fun _ hj => by cases hj
  | taking r => exact (hk.withCurrent none).setPhase i c fun _ hj => by cases hj
  | returned r => exact hk

end

theorem Line.Inv.new (limit : ℕ) (state : Option SessionState) :
    Line.Inv state ({ cs := { limit := limit } } : Line M) where
  ordered := .inl rfl
  running _ := ⟨rfl, rfl, by simp [Line.pending, Worker.hand], rfl⟩
  syncing _ := ⟨rfl, rfl⟩
  deferred _ _ := ⟨rfl, Nat.zero_le _⟩
  barred _ _ := .inl ⟨rfl, by simp [Line.pending, Worker.hand], rfl⟩

theorem Transport.keeps_beginSync (h : t.Inv) (limit : ℕ) : t.Keeps (t.beginSync limit) := by
  unfold beginSync
  split_ifs
  · exact Keeps.refl h
  · have hold : ∀ (j : ℕ) (l : Line M), t.lines[j]? = some l →
        (t.lines ++ [({ cs := { limit := limit } } : Line M)])[j]? = some l := by
      intro j l hl
      rw [List.getElem?_append_left (List.getElem?_eq_some_iff.mp hl).1, hl]
    refine ⟨⟨fun l hl => ?_, fun i c j hc hp => ?_⟩, fun j l hl => ⟨l, hold j l hl, .refl l⟩⟩
    · rcases List.mem_append.mp hl with hl | hl
      · exact h.lines l hl
      · rw [mem_singleton.mp hl]
        exact .new limit t.state
    · obtain ⟨l, hl, hans⟩ := h.passed i c j hc hp
      exact ⟨l, hold j l hl, hans⟩

theorem Transport.keeps_call (h : t.Inv) (op : Op M) :
    t.Keeps { t with calls := t.calls ++ [⟨op, .lookup⟩] } := by
  refine ⟨⟨h.lines, fun i c j hc hp => ?_⟩, (Keeps.refl h).next⟩
  rw [getElem?_append] at hc
  split_ifs at hc
  · exact h.passed i c j hc hp
  · rw [mem_singleton.mp (mem_of_getElem? hc)] at hp
    cases hp

theorem Transport.keeps_step (h : t.Inv) (e : Event M) : t.Keeps (t.step e) := by
  have hk := Keeps.refl h
  cases e with
  | beginSync limit => exact keeps_beginSync h limit
  | call op => exact keeps_call h op
  | step i wake =>
    simp only [step]
    split
    · exact hk
    · exact keeps_stepCall h (by assumption) wake
  | work j ok =>
    exact keeps_withLine h j fun l hl => hk.setLine hl ((mem_of_line h hl).work ok) (l.next_work ok)
  | commitActive =>
    refine hk.withState fun hs => ?_
    cases ht : t.state with
    | none => simp [ht] at hs
    | some state => cases state <;> simp [ht] at hs
  | beginClose =>
    refine hk.withState fun hs => ?_
    cases ht : t.state <;> simp [ht] at hs
  | unbind => exact hk.withState fun hs => by cases hs

theorem Transport.splice_fits (h : t.Inv) (e : Event M) : SpliceFits t e := by
  intro i wake c j l _ hc hp hl
  obtain ⟨k, hk, hans⟩ := h.passed i c j hc (by rw [hp]; rfl)
  rw [hl] at hk
  obtain rfl := some.inj hk
  exact (keeps_commit h i c hl hans).1

theorem Transport.inv_bound : (bound : Transport M).Inv where
  lines := by simp [bound]
  passed i c j hc := by simp [bound] at hc

theorem Transport.keeps_run (h : t.Inv) (es : List (Event M)) : t.Keeps (run step t es) := by
  induction es generalizing t with
  | nil => exact Keeps.refl h
  | cons e es ih => exact (keeps_step h e).trans (ih (keeps_step h e).inv)

end transport

/-- **Order of the control stream.**  Whatever the calls, the workers and the sinks do: deferred
messages fit in the queue when a sync is committed; what was written to the sink of a queue is a
prefix of its initial messages, then those deferred during the sync if it was committed, then those
sent while the session was active, then the final message; and when a final message was accepted,
nothing is after it. -/
theorem control_order (es : List (Event M)) :
    Along Transport.step SpliceFits Transport.bound es ∧
    (∀ l ∈ (run Transport.step Transport.bound es).lines, l.written <+: l.log.stream) ∧
    ∀ (es' : List (Event M)) (j : ℕ) (l : Line M),
      (run Transport.step Transport.bound es).lines[j]? = some l → l.log.final.isSome = true →
      ∃ l', (run Transport.step Transport.bound (es ++ es')).lines[j]? = some l' ∧ l'.log = l.log := by
  have hrun := Transport.keeps_run (M := M) Transport.inv_bound es
  refine ⟨?_, fun l hl => (hrun.inv.lines l hl).ordered.written_prefix, fun es' j l hl hfinal => ?_⟩
  · have hstep : ∀ (t : Transport M) (e : Event M), t.Inv → True → SpliceFits t e ∧ (t.step e).Inv :=
      fun t e h _ => ⟨Transport.splice_fits h e, (Transport.keeps_step h e).inv⟩
    exact Along.of_inv hstep Transport.inv_bound (along_true _ es)
  · have hclosed : l.cs.closed = true := by
      by_contra hopen
      have hnone := ((Transport.mem_of_line hrun.inv hl).running (by simpa using hopen)).2.2.2
      rw [hnone] at hfinal
      cases hfinal
    rw [run_append]
    obtain ⟨l', hl', hn⟩ := (Transport.keeps_run hrun.inv es').next j l hl
    exact ⟨l', hl', (hn.closed hclosed).2⟩

end MumbleServer.Control

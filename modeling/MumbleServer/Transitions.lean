import MumbleServer.Registry
import MumbleServer.Runs
import MumbleServer.SessionLife
import MumbleServer.Slots

/-! # Transitions of sessions

`internal/cluster/registry.go`, with the entries as the objects they are.  An operation on a session
finds its entry in the map, waits for the transition lock of that entry, and then looks at the map
again: in between the session may have been unbound and its ID bound to another one.  Each access
under the lock of the registry is a step, and so are the start and the end of the callbacks, during
which the transition lock is held.

`CommitSyncAndAnnounce` of `control.go` is here from where it asks for the transition; whether its
queue is open and takes the deferred messages is part of the step.

`join_leave_paired` is about all runs in which a generation is bound only once. -/

namespace MumbleServer.Transitions

open List Option
open SessionLife

/-! ### The registry -/

/-- `SessionState`. -/
inductive CellState where
  | syncing
  | active
  | closing
  | closed
deriving DecidableEq

/-- `entry`. -/
structure Cell where
  ref : SessionRef
  edge : String
  state : CellState
  announced : Bool
deriving DecidableEq

/-- The operations that take the transition lock; `announce` if the callback is not nil. -/
inductive Op where
  /-- `CommitActive` and `CommitActiveAndAnnounce`. -/
  | commitActive (announce : Bool)
  /-- The end of `CommitSync` and `CommitSyncAndAnnounce`. -/
  | commitSync (announce : Bool)
  /-- `BeginClose` and `BeginCloseAndNotify`. -/
  | beginClose
  | closeAndUnbind
  | unbind
deriving DecidableEq

/-- Where an operation stands; `k` is the entry whose lock it takes, `m` the one it marks. -/
inductive Phase where
  | find
  | waiting (k : ℕ)
  | entered (k : ℕ)
  /-- `withTransition` has found the entry in the map once more. -/
  | rechecked (k : ℕ)
  | announce (k m : ℕ)
  | announcing (k m : ℕ)
  | marking (k m : ℕ)
  | notifying (k : ℕ)
  | cleaning (k : ℕ)
  | unbinding (k : ℕ)
  | leaving (k : ℕ)
  | returned
deriving DecidableEq

/-- The entry whose transition lock is held. -/
def Phase.holds : Phase → Option ℕ
  | .entered k => some k
  | .rechecked k => some k
  | .announce k _ => some k
  | .announcing k _ => some k
  | .marking k _ => some k
  | .notifying k => some k
  | .cleaning k => some k
  | .unbinding k => some k
  | .leaving k => some k
  | _ => none

structure Thread where
  ref : SessionRef
  op : Op
  phase : Phase

/-- The entries that were ever made, the map from session IDs to them, the operations, and what was
seen of the sessions. -/
structure System where
  edges : List String
  cells : List Cell := []
  sessions : ℕ → Option ℕ := fun _ => none
  threads : List Thread := []
  log : List (SessionRef × Obs) := []

namespace System
variable (s : System)

/-- The entry of a session, if it is bound. -/
def cellOf (ref : SessionRef) : Option (ℕ × Cell) := do
  let k ← s.sessions ref.sessionID
  let c ← s.cells[k]?
  if c.ref = ref then some (k, c) else none

/-- Nobody holds the transition lock of an entry. -/
def free (k : ℕ) : Bool := s.threads.all fun t => decide (t.phase.holds ≠ some k)

def trace (ref : SessionRef) : List Obs :=
  s.log.filterMap fun x => if x.1 = ref then some x.2 else none

def go (i : ℕ) (t : Thread) (phase : Phase) : System :=
  { s with threads := s.threads.set i { t with phase := phase } }

def put (k : ℕ) (c : Cell) : System := { s with cells := s.cells.set k c }

def see (ref : SessionRef) (o : Obs) : System := { s with log := s.log ++ [(ref, o)] }

def bind (ref : SessionRef) (edge : String) : System :=
  if ref.valid = false ∨ edge ∉ s.edges ∨ (s.sessions ref.sessionID).isSome then s
  else { s with
    cells := s.cells ++ [⟨ref, edge, .syncing, false⟩]
    sessions := Function.update s.sessions ref.sessionID (some s.cells.length) }

section operations
variable (i : ℕ) (t : Thread) (k : ℕ)

/-- A session that is syncing becomes active. -/
def activate (announce : Bool) (m : ℕ) (c : Cell) (mark : ℕ) : System :=
  ((s.put m { c with state := .active }).see t.ref .activate).go i t
    (if announce then .announce k mark else .leaving k)

def commitActive (announce : Bool) : System :=
  match s.cellOf t.ref with
  | none => s.go i t (.leaving k)
  | some (m, c) =>
    if c.state = .syncing then s.activate i t k announce m c k else s.go i t (.leaving k)

/-- The check of `withTransition`. -/
def recheck : System :=
  if s.sessions t.ref.sessionID = some k then s.go i t (.rechecked k) else s.go i t (.leaving k)

/-- The callback of `CommitSyncAndAnnounce`. -/
def commitSync (announce queueOpen : Bool) : System :=
  match s.cellOf t.ref with
  | none => s.go i t (.leaving k)
  | some (m, c) =>
    if c.state = .syncing ∧ queueOpen then s.activate i t k announce m c m
    else s.go i t (.leaving k)

def beginClose : System :=
  match s.cellOf t.ref with
  | none => s.go i t (.leaving k)
  | some (m, c) =>
    if c.state = .closing ∨ c.state = .closed then (s.see t.ref (.close false)).go i t (.notifying k)
    else
      ((s.put m { c with state := .closing }).see t.ref (.close c.announced)).go i t (.notifying k)

/-- `CloseAndUnbind`, up to its callback. -/
def closeAndUnbind : System :=
  match s.cells[k]? with
  | none => s.go i t (.leaving k)
  | some c =>
    if s.sessions t.ref.sessionID = some k then
      ((s.put k { c with state := .closing }).see t.ref
        (.close (if c.state = .closing then false else c.announced))).go i t (.cleaning k)
    else s.go i t (.leaving k)

def unbind : System :=
  match s.cellOf t.ref with
  | none => s.go i t (.leaving k)
  | some (m, c) =>
    ({ s.put m { c with state := .closed } with
      sessions := Function.update s.sessions t.ref.sessionID none }.see t.ref .unbind).go i t
        (.leaving k)

/-- `e.announced = true`. -/
def mark (m : ℕ) : System :=
  match s.cells[m]? with
  | none => s.go i t (.leaving k)
  | some c => (s.put m { c with announced := true }).go i t (.leaving k)

/-- `transition`, up to the lock. -/
def find : System :=
  match s.cellOf t.ref with
  | none => s.go i t .returned
  | some (k, _) => s.go i t (.waiting k)

end operations

/-- The next step of an operation; `queueOpen` for `CommitSync`. -/
def stepThread (i : ℕ) (t : Thread) (queueOpen : Bool) : System :=
  match t.phase with
  | .find => s.find i t
  | .waiting k => if s.free k then s.go i t (.entered k) else s
  | .entered k =>
    match t.op with
    | .commitActive announce => s.commitActive i t k announce
    | .commitSync _ => s.recheck i t k
    | .beginClose => s.beginClose i t k
    | .closeAndUnbind => s.closeAndUnbind i t k
    | .unbind => s.unbind i t k
  | .rechecked k =>
    match t.op with
    | .commitSync announce => s.commitSync i t k announce queueOpen
    | _ => s
  | .announce k m => (s.see t.ref .announceStart).go i t (.announcing k m)
  | .announcing k m => (s.see t.ref .announceEnd).go i t (.marking k m)
  | .marking k m => s.mark i t k m
  | .notifying k => s.go i t (.leaving k)
  | .cleaning k => s.go i t (.unbinding k)
  | .unbinding k => s.unbind i t k
  | .leaving _ => s.go i t .returned
  | .returned => s

end System

inductive Event where
  | registerEdge (edge : String)
  | bind (ref : SessionRef) (edge : String)
  | call (ref : SessionRef) (op : Op)
  /-- An operation makes its next step. -/
  | step (i : ℕ) (queueOpen : Bool)

def System.step (s : System) : Event → System
  | .registerEdge edge => { s with edges := edge :: s.edges }
  | .bind ref edge => s.bind ref edge
  | .call ref op => { s with threads := s.threads ++ [⟨ref, op, .find⟩] }
  | .step i queueOpen =>
    match s.threads[i]? with
    | none => s
    | some t => s.stepThread i t queueOpen

/-- Generations are unique: a session is not bound again after it was unbound. -/
def Unique (s : System) : Event → Prop
  | .bind ref _ => s.sessions ref.sessionID = none → ∀ c ∈ s.cells, c.ref ≠ ref
  | _ => True

instance (s : System) : ∀ e, Decidable (Unique s e)
  | .bind ref _ =>
    inferInstanceAs (Decidable (s.sessions ref.sessionID = none → ∀ c ∈ s.cells, c.ref ≠ ref))
  | .registerEdge _ => isTrue trivial
  | .call _ _ => isTrue trivial
  | .step _ _ => isTrue trivial

/-- An operation on a session that is not bound changes no entry and nothing is seen of it. -/
def StaleIdle (s : System) (e : Event) : Prop :=
  ∀ i queueOpen t, e = .step i queueOpen → s.threads[i]? = some t → s.cellOf t.ref = none →
    (s.step e).cells = s.cells ∧ (s.step e).sessions = s.sessions ∧ (s.step e).log = s.log

/-- The session is closed or about to be. -/
def CellState.ended : CellState → Bool
  | .closing => true
  | .closed => true
  | _ => false

/-! ### What holds along runs -/

/-- How an entry looks at a point of its session's life. -/
def Fits (c : Cell) : Life → Prop
  | .syncing => c.state = .syncing ∧ c.announced = false
  | .active => c.state = .active ∧ c.announced = false
  | .joining => c.state = .active ∧ c.announced = false
  | .joined => c.state = .active
  | .closing => c.state = .closing
  | .closed => c.state = .closed

/-- The entry an operation works on. -/
def Phase.cell : Phase → Option ℕ
  | .waiting k => some k
  | phase => phase.holds

/-- Where the session is while its announcement is under way. -/
def Phase.stage : Phase → Option Life
  | .announce _ _ => some .active
  | .announcing _ _ => some .joining
  | .marking _ _ => some .joined
  | _ => none

/-- The entry that will be marked. -/
def Phase.marks : Phase → Option ℕ
  | .announce _ m => some m
  | .announcing _ m => some m
  | .marking _ m => some m
  | _ => none

/-- An announcement that is not over has a thread that holds the lock. -/
def Attended (s : System) (k : ℕ) (c : Cell) (l : Life) : Prop :=
  (l = .joining → ∃ t ∈ s.threads, t.phase.holds = some k ∧ t.phase.stage = some .joining) ∧
  (l = .joined → c.announced = false →
    ∃ t ∈ s.threads, t.phase.holds = some k ∧ t.phase.stage = some .joined)

structure System.Inv (s : System) : Prop where
  /-- A session has one entry. -/
  refs : ∀ (k k' : ℕ) (c c' : Cell), s.cells[k]? = some c → s.cells[k']? = some c' →
    c.ref = c'.ref → k = k'
  /-- The map has the entries that are not closed. -/
  bound : ∀ (sid k : ℕ), s.sessions sid = some k →
    ∃ c, s.cells[k]? = some c ∧ c.ref.sessionID = sid
  listed : ∀ (k : ℕ) (c : Cell), s.cells[k]? = some c →
    (c.state ≠ .closed ↔ s.sessions c.ref.sessionID = some k)
  life : ∀ (k : ℕ) (c : Cell), s.cells[k]? = some c →
    ∃ l, Life.syncing.run (s.trace c.ref) = some l ∧ Fits c l ∧ Attended s k c l
  unseen : ∀ ref, (∀ c ∈ s.cells, c.ref ≠ ref) → s.trace ref = []
  threads : ∀ (i : ℕ) (t : Thread) (k : ℕ), s.threads[i]? = some t → t.phase.cell = some k →
    (∃ c, s.cells[k]? = some c ∧ c.ref = t.ref) ∧ (∀ m, t.phase.marks = some m → m = k) ∧
      ∀ l, t.phase.stage = some l → Life.syncing.run (s.trace t.ref) = some l
  /-- A lock is held once. -/
  exclusive : ∀ (i j : ℕ) (t t' : Thread) (k : ℕ), s.threads[i]? = some t → s.threads[j]? = some t' →
    t.phase.holds = some k → t'.phase.holds = some k → i = j

/-- Entries stay, and none that has ended comes back. -/
def System.Onward (s s' : System) : Prop :=
  ∀ (k : ℕ) (c : Cell), s.cells[k]? = some c → ∃ c', s'.cells[k]? = some c' ∧ c'.ref = c.ref ∧
    (c.state.ended = true → c'.state.ended = true)

/-- What a step of an operation on `ref` may do. -/
structure System.Keeps (s s' : System) (ref : SessionRef) : Prop where
  inv : s'.Inv
  onward : s.Onward s'
  stale : s.cellOf ref = none → s'.cells = s.cells ∧ s'.sessions = s.sessions ∧ s'.log = s.log

section steps
variable {s s' : System} {ref : SessionRef} {i k : ℕ} {t : Thread} {c : Cell}
variable {l : Life}

theorem System.Onward.refl (s : System) : s.Onward s := fun _ c hc => ⟨c, hc, rfl, id⟩

theorem cellOf_eq_some : s.cellOf ref = some (k, c) ↔
    s.sessions ref.sessionID = some k ∧ s.cells[k]? = some c ∧ c.ref = ref := by
  simp only [System.cellOf, bind_eq_bind, bind_eq_some_iff]
  constructor
  · rintro ⟨k', hs, c', hc, hr⟩
    split_ifs at hr with href
    cases hr
    exact ⟨hs, hc, href⟩
  · rintro ⟨hs, hc, href⟩
    exact ⟨k, hs, c, hc, if_pos href⟩

variable {phase : Phase}

theorem Phase.cell_of_holds (h : phase.holds = some k) : phase.cell = some k := by
  cases phase <;> first | exact h | cases h

theorem Phase.holds_of_stage (h : phase.stage = some l) (hc : phase.cell = some k) :
    phase.holds = some k := by
  cases phase <;> first | exact hc | cases h

open Phase

/-- An operation finds in the map the entry whose lock it holds, if it finds one at all. -/
theorem System.Inv.cellOf_of_holds (h : s.Inv) (ht : s.threads[i]? = some t)
    (hk : t.phase.holds = some k) {m : ℕ} (hx : s.cellOf t.ref = some (m, c)) :
    m = k ∧ s.cells[k]? = some c ∧ c.state ≠ .closed := by
  obtain ⟨hs, hcell, hr⟩ := cellOf_eq_some.mp hx
  obtain ⟨⟨d, hd, hdr⟩, -, -⟩ := h.threads i t k ht (cell_of_holds hk)
  obtain rfl := h.refs m k c d hcell hd (hr.trans hdr.symm)
  exact ⟨rfl, hcell, (h.listed m c hcell).mpr (hr ▸ hs)⟩

/-- Somebody attends as long as the threads with an announcement to make stay. -/
theorem Attended.mono (h : Attended s k c l)
    (hstay : ∀ u ∈ s.threads, u.phase.holds = some k → u.phase.stage ≠ none → u ∈ s'.threads) :
    Attended s' k c l := by
  have hattend : ∀ l₁, (∃ u ∈ s.threads, u.phase.holds = some k ∧ u.phase.stage = some l₁) →
      ∃ u ∈ s'.threads, u.phase.holds = some k ∧ u.phase.stage = some l₁ := by
    rintro l₁ ⟨u, hu, huk, hul⟩
    exact ⟨u, hstay u hu huk (by simp [hul]), huk, hul⟩
  exact ⟨fun hl => hattend _ (h.1 hl), fun hl ha => hattend _ (h.2 hl ha)⟩

section threads
variable (h : s.Inv) (ht : s.threads[i]? = some t) {phase : Phase}
include h ht

/-- A thread that moves on keeps the locks exclusive if it takes none that is held. -/
theorem System.Inv.exclusive_set
    (hholds : ∀ k, phase.holds = some k → t.phase.holds = some k ∨ s.free k = true)
    (j j' : ℕ) (u u' : Thread) (k : ℕ) (hj : (s.threads.set i { t with phase := phase })[j]? = some u)
    (hj' : (s.threads.set i { t with phase := phase })[j']? = some u')
    (hu : u.phase.holds = some k) (hu' : u'.phase.holds = some k) : j = j' := by
  have hlock : ∀ (j : ℕ) (u : Thread), j ≠ i → s.threads[j]? = some u → u.phase.holds = some k →
      phase.holds ≠ some k := by
    intro j u hne hj hu hp
    rcases hholds k hp with ht' | hfree
    · exact hne (h.exclusive j i u t k hj ht hu ht')
    · have hnot := all_eq_true.mp hfree u (mem_of_getElem? hj)
      exact of_decide_eq_true hnot hu
  rcases getElem?_set_cases hj with ⟨hji, rfl⟩ | ⟨hji, hj⟩ <;>
    rcases getElem?_set_cases hj' with ⟨hji', rfl⟩ | ⟨hji', hj'⟩
  · exact hji.trans hji'.symm
  · exact absurd hu (hlock j' u' hji' hj' hu')
  · exact absurd hu' (hlock j u hji hj hu)
  · exact h.exclusive j j' u u' k hj hj' hu hu'

theorem System.Inv.go (hold : t.phase.stage = none) (hnew : phase.stage = none)
    (hmarks : phase.marks = none)
    (hcell : ∀ k, phase.cell = some k → ∃ c, s.cells[k]? = some c ∧ c.ref = t.ref)
    (hholds : ∀ k, phase.holds = some k → t.phase.holds = some k ∨ s.free k = true) :
    s.Keeps (s.go i t phase) t.ref := by
  refine ⟨⟨h.refs, h.bound, h.listed, fun k c hc => ?_, h.unseen, fun j t' k hj hk => ?_,
    h.exclusive_set ht hholds⟩, .refl s, fun _ => ⟨rfl, rfl, rfl⟩⟩
  · obtain ⟨l, hl, hfits, hattended⟩ := h.life k c hc
    -- who attends to an announcement is somebody else
    refine ⟨l, hl, hfits, hattended.mono fun u hu _ hul => mem_set_of_ne ht hu ?_ _⟩
    rintro rfl
    exact hul hold
  · rcases getElem?_set_cases hj with ⟨-, rfl⟩ | ⟨-, hj⟩
    · exact ⟨hcell k hk, by simp [hmarks], by simp [hnew]⟩
    · exact h.threads j t' k hj hk

end threads

/-- A thread acts on the entry whose lock it holds: the entry changes, something is seen of its
session, a session that is closed is unbound, and the thread goes on. -/
def System.act (s : System) (i : ℕ) (t : Thread) (k : ℕ) (c : Cell) (obs : List Obs)
    (phase : Phase) : System :=
  { s with
    cells := s.cells.set k c
    sessions := if c.state = .closed then Function.update s.sessions t.ref.sessionID none
      else s.sessions
    threads := s.threads.set i { t with phase := phase }
    log := s.log ++ obs.map fun o => (t.ref, o) }

/-- An action that leads the entry `c` of a session at `l` to `c'` and `l'`. -/
structure Leads (k : ℕ) (c : Cell) (l : Life) (obs : List Obs) (c' : Cell) (l' : Life)
    (phase : Phase) : Prop where
  ref : c'.ref = c.ref
  ended : c.state.ended = true → c'.state.ended = true
  life : l.run obs = some l'
  fits : Fits c' l'
  holds : phase.holds = some k
  marks : ∀ m, phase.marks = some m → m = k
  stage : ∀ l₁, phase.stage = some l₁ → l₁ = l'
  joining : l' = .joining → phase.stage = some .joining
  joined : l' = .joined → c'.announced = false → phase.stage = some .joined

section act
variable {c' : Cell} {obs : List Obs} {phase : Phase} {l l' : Life}

theorem trace_act (s : System) (ref : SessionRef) : (s.act i t k c' obs phase).trace ref =
    if t.ref = ref then s.trace ref ++ obs else s.trace ref := by
  unfold System.act System.trace
  rw [filterMap_append, filterMap_map]
  split_ifs with h
  · simp [h]
  · simp [h]

theorem cells_act (hc : s.cells[k]? = some c) (href : c'.ref = c.ref) {j : ℕ} {d : Cell}
    (hd : s.cells[j]? = some d) :
    ∃ d', (s.act i t k c' obs phase).cells[j]? = some d' ∧ d'.ref = d.ref ∧
      (j = k → d = c ∧ d' = c') ∧ (j ≠ k → d' = d) := by
  by_cases hjk : j = k
  · subst hjk
    rw [hc] at hd
    obtain rfl := some.inj hd
    have hj : j < s.cells.length := (List.getElem?_eq_some_iff.mp hc).1
    exact ⟨c', List.getElem?_set_self hj, href, fun _ => ⟨rfl, rfl⟩, fun hne => absurd rfl hne⟩
  · exact ⟨d, (List.getElem?_set_ne (Ne.symm hjk)).trans hd, rfl, fun he => absurd he hjk,
      fun _ => rfl⟩

theorem act_self (hc : s.cells[k]? = some c) (hopen : c.state ≠ .closed) (o : Obs) :
    s.act i t k c [o] phase = (s.see t.ref o).go i t phase := by
  obtain ⟨hlt, hget⟩ := List.getElem?_eq_some_iff.mp hc
  have hsame : s.cells.set k c = s.cells := by
    rw [← hget]
    exact set_getElem_self hlt
  unfold System.act
  rw [hsame, if_neg hopen]
  rfl

variable (h : s.Inv) (ht : s.threads[i]? = some t) (hk : t.phase.holds = some k)
  (hc : s.cells[k]? = some c)
include h ht hk hc

theorem System.Inv.ref_of_holds : c.ref = t.ref := by
  obtain ⟨⟨d, hd, hdr⟩, -, -⟩ := h.threads i t k ht (cell_of_holds hk)
  rw [hc] at hd
  rw [some.inj hd, hdr]

theorem System.Inv.trace_act_of_ne {j : ℕ} {d : Cell} (hd : s.cells[j]? = some d) (hjk : j ≠ k) :
    (s.act i t k c' obs phase).trace d.ref = s.trace d.ref := by
  rw [trace_act, if_neg]
  intro he
  exact hjk (h.refs j k d c hd hc (he.symm.trans (h.ref_of_holds ht hk hc).symm))

/-- The map after an action: the session of the entry is bound unless it is closed, and the other
entries are listed as before. -/
theorem System.Inv.listed_act (hopen : c.state ≠ .closed) (href : c'.ref = c.ref) {j : ℕ} {d : Cell}
    (hd : (s.act i t k c' obs phase).cells[j]? = some d) :
    d.state ≠ .closed ↔ (s.act i t k c' obs phase).sessions d.ref.sessionID = some j := by
  have hcr := h.ref_of_holds ht hk hc
  have hbound : s.sessions t.ref.sessionID = some k := hcr ▸ (h.listed k c hc).mp hopen
  unfold System.act
  rcases getElem?_set_cases hd with ⟨rfl, rfl⟩ | ⟨hjk, hd⟩
  · rw [href, hcr]
    by_cases hcl : d.state = .closed
    · simp [hcl]
    · simp [hcl, hbound]
  · have hold := h.listed j d hd
    by_cases hcl : c'.state = .closed
    · simp only [hcl, if_true]
      by_cases hsid : d.ref.sessionID = t.ref.sessionID
      · rw [hsid, hbound] at hold
        rw [hsid, Function.update_self, hold]
        simp [Ne.symm hjk]
      · rw [Function.update_of_ne hsid]
        exact hold
    · simp only [hcl, if_false]
      exact hold

/-- **An action keeps the invariant.** -/
theorem System.Inv.act (hopen : c.state ≠ .closed)
    (hrun : Life.syncing.run (s.trace t.ref) = some l) (hm : Leads k c l obs c' l' phase) :
    s.Keeps (s.act i t k c' obs phase) t.ref := by
  have hcr := h.ref_of_holds ht hk hc
  have hself : { t with phase := phase } ∈ (s.act i t k c' obs phase).threads :=
    mem_set_self ht _
  have hrun' : Life.syncing.run ((s.act i t k c' obs phase).trace t.ref) = some l' := by
    rw [trace_act, if_pos rfl]
    exact Life.run_append_eq_some.mpr ⟨l, hrun, hm.life⟩
  have hpre : ∀ (j : ℕ) (d' : Cell), (s.act i t k c' obs phase).cells[j]? = some d' →
      ∃ d, s.cells[j]? = some d ∧ d.ref = d'.ref := by
    intro j d' hd
    rcases getElem?_set_cases hd with ⟨rfl, rfl⟩ | ⟨-, hd⟩
    · exact ⟨c, hc, hm.ref.symm⟩
    · exact ⟨d', hd, rfl⟩
  refine ⟨⟨?_, ?_, fun j d hd => h.listed_act ht hk hc hopen hm.ref hd, ?_, ?_, ?_, ?_⟩, ?_, ?_⟩
  · intro j j' d d' hd hd' he
    obtain ⟨e, he₁, her⟩ := hpre j d hd
    obtain ⟨e', he₁', her'⟩ := hpre j' d' hd'
    exact h.refs j j' e e' he₁ he₁' (her.trans (he.trans her'.symm))
  · intro sid m hsid
    have hsid' : s.sessions sid = some m := by
      unfold System.act at hsid
      dsimp only at hsid
      split_ifs at hsid
      · rw [Function.update_apply] at hsid
        split_ifs at hsid
        exact hsid
      · exact hsid
    obtain ⟨d, hd, hds⟩ := h.bound sid m hsid'
    obtain ⟨d', hd', hr, -⟩ := cells_act hc hm.ref hd
    exact ⟨d', hd', by rw [hr, hds]⟩
  · intro j d hd
    rcases getElem?_set_cases hd with ⟨rfl, rfl⟩ | ⟨hjk, hd⟩
    · rw [hm.ref, hcr]
      exact ⟨l', hrun', hm.fits, fun hl => ⟨_, hself, hm.holds, hm.joining hl⟩,
        fun hl ha => ⟨_, hself, hm.holds, hm.joined hl ha⟩⟩
    · obtain ⟨l₁, hl₁, hf, hattended⟩ := h.life j d hd
      rw [h.trace_act_of_ne ht hk hc hd hjk]
      -- the thread holds another lock, so it is not the one that attends
      refine ⟨l₁, hl₁, hf, hattended.mono fun u hu huj _ => mem_set_of_ne ht hu ?_ _⟩
      rintro rfl
      rw [hk] at huj
      exact hjk (some.inj huj).symm
  · intro ref hnone
    have hne : t.ref ≠ ref := by
      rintro rfl
      obtain ⟨d, hd, hr, -⟩ := cells_act hc hm.ref hc
      exact hnone d (mem_of_getElem? hd) (hr.trans hcr)
    rw [trace_act, if_neg hne]
    refine h.unseen ref fun d hd hr => ?_
    obtain ⟨j, hj⟩ := mem_iff_getElem?.mp hd
    obtain ⟨d', hd', hr', -⟩ := cells_act hc hm.ref hj
    exact hnone d' (mem_of_getElem? hd') (hr'.trans hr)
  · intro j u m hj hu
    rcases getElem?_set_cases hj with ⟨-, rfl⟩ | ⟨hji, hju⟩
    · obtain rfl : k = m := some.inj ((cell_of_holds hm.holds).symm.trans hu)
      obtain ⟨d, hd, hr, -⟩ := cells_act hc hm.ref hc
      refine ⟨⟨d, hd, hr.trans hcr⟩, hm.marks, fun l₁ hl₁ => ?_⟩
      rw [hm.stage l₁ hl₁]
      exact hrun'
    · obtain ⟨⟨d, hd, hdr⟩, hmarks, hstage⟩ := h.threads j u m hju hu
      obtain ⟨d', hd', hr, -⟩ := cells_act hc hm.ref hd
      refine ⟨⟨d', hd', hr.trans hdr⟩, hmarks, fun l₁ hl₁ => ?_⟩
      have hmk : m ≠ k := by
        intro he
        have hum := holds_of_stage hl₁ hu
        rw [he] at hum
        exact hji (h.exclusive j i u t k hju ht hum hk)
      rw [← hdr, h.trace_act_of_ne ht hk hc hd hmk, hdr]
      exact hstage l₁ hl₁
  · refine h.exclusive_set ht fun k' hk' => .inl ?_
    rw [hm.holds] at hk'
    rw [hk, hk']
  · intro j d hd
    obtain ⟨d', hd', hr, hself, hother⟩ := cells_act hc hm.ref hd
    refine ⟨d', hd', hr, fun he => ?_⟩
    by_cases hjk : j = k
    · obtain ⟨rfl, rfl⟩ := hself hjk
      exact hm.ended he
    · rw [hother hjk]
      exact he
  · intro hnone
    rw [cellOf_eq_some.mpr ⟨hcr ▸ (h.listed k c hc).mp hopen, hc, hcr⟩] at hnone
    cases hnone

/-- With the lock and no announcement to make, the entry says where the session is. -/
theorem System.Inv.settled (hstage : t.phase.stage = none) :
    ∃ l, Life.syncing.run (s.trace t.ref) = some l ∧ Fits c l ∧ l ≠ .joining ∧
      (l = .joined → c.announced = true) := by
  have hnobody : ∀ l, ¬∃ u ∈ s.threads, u.phase.holds = some k ∧ u.phase.stage = some l := by
    rintro l ⟨u, hu, huk, hul⟩
    obtain ⟨j, hj⟩ := mem_iff_getElem?.mp hu
    obtain rfl := h.exclusive i j t u k ht hj hk huk
    rw [ht] at hj
    rw [← some.inj hj, hstage] at hul
    cases hul
  obtain ⟨l, hl, hf, hjoining, hjoined⟩ := h.life k c hc
  rw [h.ref_of_holds ht hk hc] at hl
  refine ⟨l, hl, hf, fun he => hnobody _ (hjoining he), fun he => ?_⟩
  by_contra ha
  exact hnobody _ (hjoined he (by simpa using ha))

end act

section
variable (hf : Fits c l) (hopen : c.state ≠ .closed) (hjoining : l ≠ .joining)
include hf hopen hjoining

theorem Fits.close (hjoined : l = .joined → c.announced = true) :
    l.run [.close (if c.state = .closing then false else c.announced)] = some .closing := by
  cases l <;> simp_all [Fits, Life.run, Life.next]

theorem Fits.unbind : l.run [.unbind] = some .closed := by
  cases l <;> simp_all [Fits, Life.run, Life.next]

end

attribute [local simp] Phase.holds Phase.stage Phase.marks

section cases
variable (h : s.Inv) (ht : s.threads[i]? = some t) (hk : t.phase.holds = some k)
include h ht hk

section
variable (hstage : t.phase.stage = none)
include hstage

theorem System.Inv.inside (phase : Phase)
    (hholds : phase.holds = some k) (hnew : phase.stage = none) (hmarks : phase.marks = none) :
    s.Keeps (s.go i t phase) t.ref := by
  have hcell := (h.threads i t k ht (cell_of_holds hk)).1
  refine h.go ht hstage hnew hmarks ?_ ?_
  · rintro k' hk'
    obtain rfl := some.inj ((cell_of_holds hholds).symm.trans hk')
    exact hcell
  · rintro k' hk'
    exact .inl (hk.trans (hholds.symm.trans hk'))

theorem System.Inv.leave : s.Keeps (s.go i t (.leaving k)) t.ref :=
  h.inside ht hk hstage (.leaving k) rfl rfl rfl

theorem System.Inv.recheck : s.Keeps (s.recheck i t k) t.ref := by
  unfold System.recheck
  split_ifs
  · exact h.inside ht hk hstage (.rechecked k) rfl rfl rfl
  · exact h.leave ht hk hstage

theorem System.Inv.activate (hc : s.cells[k]? = some c)
    (hs : c.state = .syncing) (announce : Bool) :
    s.Keeps (s.activate i t k announce k c k) t.ref := by
  obtain ⟨l, hl, hf, -, -⟩ := h.settled ht hk hc hstage
  have hsync : l = .syncing ∧ c.announced = false := by
    cases l <;> simp_all [Fits]
  obtain ⟨rfl, ha⟩ := hsync
  have hm : Leads k c .syncing [.activate] { c with state := .active } .active
      (if announce then .announce k k else .leaving k) := by
    refine ⟨rfl, by simp [hs, CellState.ended], rfl, ⟨rfl, ha⟩, ?_, ?_, ?_, ?_, ?_⟩ <;>
      cases announce <;> simp [holds, marks, stage]
  exact h.act ht hk hc (by simp [hs]) hl hm

theorem System.Inv.close (hc : s.cells[k]? = some c)
    (hopen : c.state ≠ .closed) (phase : Phase) (hholds : phase.holds = some k)
    (hmarks : phase.marks = none) (hnew : phase.stage = none) :
    s.Keeps (s.act i t k { c with state := .closing }
      [.close (if c.state = .closing then false else c.announced)] phase) t.ref := by
  obtain ⟨l, hl, hf, hjoining, hjoined⟩ := h.settled ht hk hc hstage
  have hlife := hf.close hopen hjoining hjoined
  exact h.act ht hk hc hopen hl ⟨rfl, fun _ => rfl, hlife, rfl, hholds,
    fun _ hm => (nomatch hmarks.symm.trans hm), fun _ hl => (nomatch hnew.symm.trans hl), by simp,
    by simp⟩

theorem System.Inv.beginClose : s.Keeps (s.beginClose i t k) t.ref := by
  unfold System.beginClose
  split
  · exact h.leave ht hk hstage
  · rename_i m c hx
    obtain ⟨rfl, hc, hopen⟩ := h.cellOf_of_holds ht hk hx
    have hkeeps := h.close ht hk hstage hc hopen (.notifying m) rfl rfl rfl
    split_ifs with hended
    · have hclosing : c.state = .closing := hended.resolve_right hopen
      rw [if_pos hclosing, ← hclosing, act_self hc hopen] at hkeeps
      exact hkeeps
    · rw [not_or] at hended
      rw [if_neg hended.1] at hkeeps
      exact hkeeps

theorem System.Inv.closeAndUnbind : s.Keeps (s.closeAndUnbind i t k) t.ref := by
  obtain ⟨⟨c, hc, hr⟩, -, -⟩ := h.threads i t k ht (cell_of_holds hk)
  unfold System.closeAndUnbind
  rw [hc]
  by_cases hs : s.sessions t.ref.sessionID = some k
  · simp only [if_pos hs]
    exact h.close ht hk hstage hc ((h.listed k c hc).mpr (hr ▸ hs)) (.cleaning k) rfl rfl rfl
  · simp only [if_neg hs]
    exact h.leave ht hk hstage

theorem System.Inv.unbind : s.Keeps (s.unbind i t k) t.ref := by
  unfold System.unbind
  split
  · exact h.leave ht hk hstage
  · rename_i m c hx
    obtain ⟨rfl, hc, hopen⟩ := h.cellOf_of_holds ht hk hx
    obtain ⟨l, hl, hf, hjoining, -⟩ := h.settled ht hk hc hstage
    have hm : Leads m c l [.unbind] { c with state := .closed } .closed (.leaving m) :=
      ⟨rfl, fun _ => rfl, hf.unbind hopen hjoining, rfl, rfl, by simp,
        by simp, by simp, by simp⟩
    exact h.act ht hk hc hopen hl hm

theorem System.Inv.commitActive (announce : Bool) :
    s.Keeps (s.commitActive i t k announce) t.ref := by
  unfold System.commitActive
  split
  · exact h.leave ht hk hstage
  · rename_i m c hx
    obtain ⟨rfl, hc, -⟩ := h.cellOf_of_holds ht hk hx
    split_ifs with hs
    · exact h.activate ht hk hstage hc hs announce
    · exact h.leave ht hk hstage

theorem System.Inv.commitSync (announce queueOpen : Bool) :
    s.Keeps (s.commitSync i t k announce queueOpen) t.ref := by
  unfold System.commitSync
  split
  · exact h.leave ht hk hstage
  · rename_i m c hx
    obtain ⟨rfl, hc, -⟩ := h.cellOf_of_holds ht hk hx
    split_ifs with hs
    · exact h.activate ht hk hstage hc hs.1 announce
    · exact h.leave ht hk hstage

end

/-- While its announcement is under way the session is where the thread left it. -/
theorem System.Inv.under_way {l : Life} {m : ℕ} (hp : t.phase = phase) (hstage : phase.stage = some l)
    (hmarks : phase.marks = some m) : m = k ∧
    ∃ c, s.cells[k]? = some c ∧ Life.syncing.run (s.trace t.ref) = some l ∧ Fits c l := by
  obtain ⟨⟨c, hc, hr⟩, hm, hl⟩ := h.threads i t k ht (cell_of_holds hk)
  obtain ⟨l', hl', hf, -⟩ := h.life k c hc
  rw [hr, hl l (hp ▸ hstage)] at hl'
  obtain rfl := some.inj hl'
  exact ⟨hm m (hp ▸ hmarks), c, hc, hl _ (hp ▸ hstage), hf⟩

section announcing
variable {m : ℕ}

theorem System.Inv.announceStart (hp : t.phase = .announce k m) :
    s.Keeps ((s.see t.ref .announceStart).go i t (.announcing k m)) t.ref := by
  obtain ⟨rfl, c, hc, hl, hf⟩ := h.under_way ht hk hp rfl rfl
  have hopen : c.state ≠ .closed := by simp [hf.1]
  rw [← act_self hc hopen]
  exact h.act ht hk hc hopen hl ⟨rfl, id, rfl, hf, rfl, by simp, by simp, fun _ => rfl, by simp⟩

theorem System.Inv.announceEnd (hp : t.phase = .announcing k m) :
    s.Keeps ((s.see t.ref .announceEnd).go i t (.marking k m)) t.ref := by
  obtain ⟨rfl, c, hc, hl, hf⟩ := h.under_way ht hk hp rfl rfl
  have hopen : c.state ≠ .closed := by simp [hf.1]
  rw [← act_self hc hopen]
  exact h.act ht hk hc hopen hl ⟨rfl, id, rfl, hf.1, rfl, by simp, by simp, by simp, fun _ _ => rfl⟩

theorem System.Inv.mark (hp : t.phase = .marking k m) : s.Keeps (s.mark i t k m) t.ref := by
  obtain ⟨rfl, c, hc, hl, hf⟩ := h.under_way ht hk hp rfl rfl
  have hf' : c.state = .active := hf
  have hm : Leads m c .joined [] { c with announced := true } .joined (.leaving m) :=
    ⟨rfl, id, rfl, hf, rfl, by simp, by simp, by simp, by simp⟩
  have hmark : s.mark i t m m = s.act i t m { c with announced := true } [] (.leaving m) := by
    simp [System.mark, System.act, System.put, System.go, hc, hf']
  rw [hmark]
  exact h.act ht hk hc (by simp [hf']) hl hm

end announcing

end cases

theorem System.Inv.find (h : s.Inv) (ht : s.threads[i]? = some t) (hp : t.phase = .find) :
    s.Keeps (s.find i t) t.ref := by
  unfold System.find
  split
  · exact h.go ht (hp ▸ rfl) rfl rfl (by simp [cell]) (by simp)
  · rename_i k c hx
    obtain ⟨-, hc, hr⟩ := cellOf_eq_some.mp hx
    refine h.go ht (hp ▸ rfl) rfl rfl ?_ (by simp)
    rintro k' hk'
    obtain rfl := some.inj hk'
    exact ⟨c, hc, hr⟩

/-- **A step of an operation keeps the invariant**, and changes nothing if its session is not
bound. -/
theorem System.Inv.stepThread (h : s.Inv) (ht : s.threads[i]? = some t) (queueOpen : Bool) :
    s.Keeps (s.stepThread i t queueOpen) t.ref := by
  have hidle : s.Keeps s t.ref := ⟨h, .refl s, fun _ => ⟨rfl, rfl, rfl⟩⟩
  unfold System.stepThread
  cases hp : t.phase with
  | find => exact h.find ht hp
  | waiting k =>
    dsimp only
    split_ifs with hfree
    · have hcell := (h.threads i t k ht (hp ▸ rfl)).1
      refine h.go ht (hp ▸ rfl) rfl rfl ?_ ?_
      · rintro k' hk'
        obtain rfl := some.inj hk'
        exact hcell
      · rintro k' hk'
        obtain rfl := some.inj hk'
        exact .inr hfree
    · exact hidle
  | entered k =>
    have hk : t.phase.holds = some k := hp ▸ rfl
    have hstage : t.phase.stage = none := hp ▸ rfl
    cases t.op with
    | commitActive announce => exact h.commitActive ht hk hstage announce
    | commitSync announce => exact h.recheck ht hk hstage
    | beginClose => exact h.beginClose ht hk hstage
    | closeAndUnbind => exact h.closeAndUnbind ht hk hstage
    | unbind => exact h.unbind ht hk hstage
  | rechecked k =>
    have hk : t.phase.holds = some k := hp ▸ rfl
    cases t.op with
    | commitSync announce => exact h.commitSync ht hk (hp ▸ rfl) announce queueOpen
    | _ => exact hidle
  | announce k m => exact h.announceStart ht (hp ▸ rfl) hp
  | announcing k m => exact h.announceEnd ht (hp ▸ rfl) hp
  | marking k m => exact h.mark ht (hp ▸ rfl) hp
  | notifying k => exact h.leave ht (hp ▸ rfl) (hp ▸ rfl)
  | cleaning k => exact h.inside ht (hp ▸ rfl) (hp ▸ rfl) (.unbinding k) rfl rfl rfl
  | unbinding k => exact h.unbind ht (hp ▸ rfl) (hp ▸ rfl)
  | leaving k => exact h.go ht (hp ▸ rfl) rfl rfl (by simp [cell]) (by simp)
  | returned => exact hidle

theorem System.Inv.bind (h : s.Inv) (ref : SessionRef) (edge : String)
    (hu : Unique s (.bind ref edge)) : (s.bind ref edge).Inv ∧ s.Onward (s.bind ref edge) := by
  unfold System.bind
  split_ifs with hcond
  · exact ⟨h, .refl s⟩
  · rw [not_or, not_or] at hcond
    have hnone : s.sessions ref.sessionID = none := by simpa using hcond.2.2
    have hfresh : ∀ (k : ℕ) (c : Cell), s.cells[k]? = some c → c.ref ≠ ref :=
      fun k c hc => hu hnone c (mem_of_getElem? hc)
    have hunseen : s.trace ref = [] := h.unseen ref (hu hnone)
    refine ⟨⟨?_, ?_, ?_, ?_, ?_, ?_, h.exclusive⟩,
      fun k c hc => ⟨c, getElem?_concat _ hc, rfl, id⟩⟩
    · intro k k' c c' hc hc' he
      rcases getElem?_concat_cases hc with ⟨hk, rfl⟩ | hc <;>
        rcases getElem?_concat_cases hc' with ⟨hk', rfl⟩ | hc'
      · exact hk.trans hk'.symm
      · exact absurd he.symm (hfresh k' c' hc')
      · exact absurd he (hfresh k c hc)
      · exact h.refs k k' c c' hc hc' he
    · intro sid k hk
      dsimp only at hk
      rw [Function.update_apply] at hk
      split_ifs at hk with hsid
      · obtain rfl := some.inj hk
        exact ⟨⟨ref, edge, .syncing, false⟩, by simp, hsid.symm⟩
      · obtain ⟨c, hc, hr⟩ := h.bound sid k hk
        exact ⟨c, getElem?_concat _ hc, hr⟩
    · intro k c hc
      rcases getElem?_concat_cases hc with ⟨rfl, rfl⟩ | hc
      · simp
      · have hold := h.listed k c hc
        by_cases hsid : c.ref.sessionID = ref.sessionID
        · rw [hsid, hnone] at hold
          have hne : s.cells.length ≠ k := (List.getElem?_eq_some_iff.mp hc).1.ne'
          simp [hsid, hold, hne]
        · simpa [Function.update_of_ne hsid] using hold
    · intro k c hc
      rcases getElem?_concat_cases hc with ⟨rfl, rfl⟩ | hc
      · refine ⟨.syncing, ?_, ⟨rfl, rfl⟩, by simp, by simp⟩
        show Life.syncing.run (s.trace ref) = some .syncing
        rw [hunseen]
        rfl
      · exact h.life k c hc
    · intro r hr
      exact h.unseen r fun c hc => hr c (mem_append_left _ hc)
    · intro j t k hj hk
      obtain ⟨⟨c, hc, hr⟩, hrest⟩ := h.threads j t k hj hk
      exact ⟨⟨c, getElem?_concat _ hc, hr⟩, hrest⟩

theorem System.Inv.call (h : s.Inv) (ref : SessionRef) (op : Op) : (s.step (.call ref op)).Inv := by
  have hphase : ∀ (j : ℕ) (u : Thread), (s.threads ++ [⟨ref, op, .find⟩])[j]? = some u →
      u.phase = .find ∨ s.threads[j]? = some u := by
    intro j u hj
    rcases getElem?_concat_cases hj with ⟨-, rfl⟩ | hj
    · exact .inl rfl
    · exact .inr hj
  refine ⟨h.refs, h.bound, h.listed, ?_, h.unseen, ?_, ?_⟩
  · intro k c hc
    obtain ⟨l, hl, hf, hattended⟩ := h.life k c hc
    exact ⟨l, hl, hf, hattended.mono fun _ hu _ _ => mem_append_left _ hu⟩
  · intro j u k hj hk
    rcases hphase j u hj with hfind | hj
    · rw [hfind] at hk
      cases hk
    · exact h.threads j u k hj hk
  · intro j j' u u' k hj hj' hu hu'
    rcases hphase j u hj with hfind | hj
    · rw [hfind] at hu
      cases hu
    rcases hphase j' u' hj' with hfind | hj'
    · rw [hfind] at hu'
      cases hu'
    exact h.exclusive j j' u u' k hj hj' hu hu'

theorem System.Inv.step (h : s.Inv) (e : Event) (hu : Unique s e) :
    (s.step e).Inv ∧ s.Onward (s.step e) ∧ StaleIdle s e := by
  have hother : (∀ i queueOpen, e ≠ .step i queueOpen) → StaleIdle s e :=
    fun hne i queueOpen t he => absurd he (hne i queueOpen)
  cases e with
  | registerEdge edge => exact ⟨{ h with }, .refl s, hother (by simp)⟩
  | bind ref edge => exact ⟨(h.bind ref edge hu).1, (h.bind ref edge hu).2, hother (by simp)⟩
  | call ref op => exact ⟨h.call ref op, .refl s, hother (by simp)⟩
  | step i queueOpen =>
    cases ht : s.threads[i]? with
    | none =>
      have hstep : s.step (.step i queueOpen) = s := by simp only [System.step, ht]
      refine ⟨by rw [hstep]; exact h, by rw [hstep]; exact .refl s, fun i' queueOpen' t he ht' => ?_⟩
      cases he
      rw [ht] at ht'
      cases ht'
    | some t =>
      have hstep : s.step (.step i queueOpen) = s.stepThread i t queueOpen := by
        simp only [System.step, ht]
      have hkeeps := h.stepThread ht queueOpen
      rw [← hstep] at hkeeps
      refine ⟨hkeeps.inv, hkeeps.onward, fun i' queueOpen' t' he ht' => ?_⟩
      cases he
      rw [ht] at ht'
      obtain rfl := some.inj ht'
      exact hkeeps.stale

theorem System.Onward.trans {s'' : System} (h : s.Onward s')
    (h' : s'.Onward s'') : s.Onward s'' := by
  intro k c hc
  obtain ⟨c', hc', hr, he⟩ := h k c hc
  obtain ⟨c'', hc'', hr', he'⟩ := h' k c' hc'
  exact ⟨c'', hc'', hr'.trans hr, fun hended => he' (he hended)⟩

theorem System.Inv.run (h : s.Inv) {es : List Event} (hu : Along System.step Unique s es) :
    (run System.step s es).Inv ∧ s.Onward (run System.step s es) ∧
      Along System.step StaleIdle s es := by
  induction es generalizing s with
  | nil => exact ⟨h, .refl s, trivial⟩
  | cons e es ih =>
    obtain ⟨hinv, honward, hstale⟩ := h.step e hu.1
    obtain ⟨hinv', honward', hstale'⟩ := ih hinv hu.2
    exact ⟨hinv', honward.trans honward', hstale, hstale'⟩

end steps

theorem System.Inv.initial (edges : List String) : System.Inv { edges := edges } := by
  refine ⟨?_, ?_, ?_, ?_, fun _ _ => rfl, ?_, ?_⟩ <;> simp

theorem System.Inv.paired {s : System} (h : s.Inv) (ref : SessionRef) : Paired (s.trace ref) := by
  by_cases hc : ∀ c ∈ s.cells, c.ref ≠ ref
  · rw [h.unseen ref hc]
    exact paired_of_run rfl
  · push Not at hc
    obtain ⟨c, hc, rfl⟩ := hc
    obtain ⟨k, hk⟩ := mem_iff_getElem?.mp hc
    obtain ⟨l, hl, -⟩ := h.life k c hk
    exact paired_of_run hl

/-- **Joining and leaving are paired**, in every run in which a generation is bound only once: what
is seen of each session is in the right order, a session that is closing never comes back, and an
operation whose session is not bound changes nothing. -/
theorem join_leave_paired (edges : List String) (es : List Event)
    (h : Along System.step Unique { edges := edges } es) :
    (∀ ref, Paired ((run System.step { edges := edges } es).trace ref)) ∧
    (∀ pre post, es = pre ++ post → ∀ ref,
      ∀ c ∈ (run System.step { edges := edges } pre).cells, c.ref = ref → c.state.ended = true →
      ∀ c' ∈ (run System.step { edges := edges } es).cells, c'.ref = ref → c'.state.ended = true) ∧
    Along System.step StaleIdle { edges := edges } es := by
  obtain ⟨hinv, -, hstale⟩ := (System.Inv.initial edges).run h
  refine ⟨hinv.paired, ?_, hstale⟩
  rintro pre post rfl ref c hc hr hended c' hc' hr'
  rw [along_append] at h
  obtain ⟨hpre, -, -⟩ := (System.Inv.initial edges).run h.1
  obtain ⟨-, honward, -⟩ := hpre.run h.2
  rw [← run_append] at honward
  obtain ⟨k, hk⟩ := mem_iff_getElem?.mp hc
  obtain ⟨k', hk'⟩ := mem_iff_getElem?.mp hc'
  obtain ⟨d, hd, hdr, hde⟩ := honward k c hk
  -- the entry of a session is one and the same
  obtain rfl := hinv.refs k k' d c' hd hk' (hdr.trans (hr.trans hr'.symm))
  rw [hd] at hk'
  rw [← some.inj hk']
  exact hde hended

/-- A session joins; then two operations that close it overlap, and its ID is bound again. -/
def rejoin : List Event :=
  List.flatten [
    [.bind ⟨1, 1⟩ "local", .call ⟨1, 1⟩ (.commitActive true), .call ⟨1, 1⟩ .beginClose,
      .call ⟨1, 1⟩ .closeAndUnbind],
    List.replicate 3 (.step 0 true), List.replicate 2 (.step 1 true),
    List.replicate 4 (.step 0 true), [.step 2 true], List.replicate 4 (.step 1 true),
    List.replicate 5 (.step 2 true), [.bind ⟨1, 2⟩ "local"]]

theorem join_leave_paired_rejoin : Along System.step Unique { edges := ["local"] } rejoin ∧
    (run System.step { edges := ["local"] } rejoin).trace ⟨1, 1⟩ =
      [.activate, .announceStart, .announceEnd, .close true, .close false, .unbind] ∧
    Paired ((run System.step { edges := ["local"] } rejoin).trace ⟨1, 1⟩) :=
  have h : Along System.step Unique { edges := ["local"] } rejoin := by decide +kernel
  ⟨h, by decide +kernel, (join_leave_paired ["local"] rejoin h).1 ⟨1, 1⟩⟩

end MumbleServer.Transitions

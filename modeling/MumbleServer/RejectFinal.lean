import MumbleServer.OneSession

/-! # A Reject is the last thing a client is sent

`SendReject` queues the Reject and leaves it to another goroutine to close the connection, which
takes until the queue is empty.  Meanwhile the read loop goes on, and so does whoever else writes
to the client.  What a client sends behind a refused Authenticate is dropped in the state
Authenticating.  The Reject is final if the client does not authenticate again, after a Reject or
on a connection that has got as far as an initial sync, and no message is dispatched just between
the two accesses with which `Close` sets the state and closes `done`. -/

namespace MumbleServer.LocalLogin

open List

/-! ### What is remembered -/

namespace Note

def message : Note → Option Message
  | .queued m => some m
  | .created _ => none

def isReject (n : Note) : Bool := n.message.any Message.isReject

end Note

/-- `handleAuthenticate` may still send a Reject. -/
def Handler.mayReject : Handler → Bool
  | .checking _ | .counting _ | .asking _ | .adding _ | .numbering _ | .stamping _ | .binding _
  | .beginning _ | .backing _ | .undoing _ => true
  | _ => false

namespace Conn
variable (c : Conn)

def rejected : Bool := c.log.any Note.isReject

/-- Whether a message of the client may be dispatched; `sink` says that the control transport has
begun to sync the connection. -/
def admits (sink : Bool) : Packet → Bool
  | .version => true
  | .authenticate _ => !c.rejected && !sink
  | .ping | .other _ => !c.rejected || decide (c.phase ≠ .marked)

/-- Nothing was written after a Reject, and no session created after it was queued. -/
def RejectFinal : Prop :=
  (∀ pre m post, c.wire = pre ++ m :: post → m.isReject = true → post = []) ∧
    ∀ pre n post, c.log = pre ++ n :: post → n.isReject = true → ∀ ref, .created ref ∉ post

/-- Only a connection that the control transport writes to is Active, and one that nobody closes is
not Closed. -/
def Placed (sink : Prop) : Prop :=
  (c.state = .active → sink) ∧ (c.phase = .live → c.state ≠ .closed)

/-- What holds of a connection; `sink` says that the control transport writes to it. -/
structure Final (sink : Prop) : Prop where
  fifo : c.log.filterMap Note.message = c.wire ++ c.queue
  last : ∀ pre n post, c.log = pre ++ n :: post → n.isReject = true → post = []
  quiet : c.rejected = true → c.handler = .idle ∧ ¬ sink
  early : c.handler ≠ .idle → (c.handler.mayReject = true ↔ ¬ sink)
  placed : c.Placed sink

end Conn

variable {h' : Handler}

namespace Conn.Final
variable {c c' : Conn} {sink : Prop} (h : c.Final sink)
include h

open Note

theorem rejectFinal : c.RejectFinal := by
  refine ⟨fun pre m post hw hm => ?_, fun pre n post hl hn ref hmem => ?_⟩
  · have hsplit := h.fifo
    rw [hw, append_assoc, cons_append] at hsplit
    obtain ⟨l₁, l₂, hlog, -, hrest⟩ := filterMap_eq_append_iff.mp hsplit
    obtain ⟨a, n, b, rfl, -, hn, hb⟩ := filterMap_eq_cons_iff.mp hrest
    have hnil : b = [] := h.last (l₁ ++ a) n b (by simp [hlog]) (by simp [isReject, hn, hm])
    rw [hnil] at hb
    exact (append_eq_nil_iff.mp hb.symm).1
  · rw [h.last pre n post hl hn] at hmem
    cases hmem

theorem same (hlog : c'.log = c.log) (hwire : c'.wire = c.wire) (hqueue : c'.queue = c.queue)
    (hquiet : c.rejected = true → c'.handler = .idle ∧ ¬ sink)
    (hearly : c'.handler ≠ .idle → (c'.handler.mayReject = true ↔ ¬ sink))
    (hplaced : c'.Placed sink) : c'.Final sink where
  fifo := by rw [hlog, hwire, hqueue, h.fifo]
  last := hlog ▸ h.last
  quiet := by rwa [rejected, hlog]
  early := hearly
  placed := hplaced

theorem close : c.close.Final sink := by
  unfold Conn.close
  split
  · exact h
  · exact h.same rfl rfl rfl h.quiet h.early ⟨nofun, nofun⟩

theorem write : c.write.Final sink := by
  unfold Conn.write
  split
  · exact h
  · rename_i m rest hq
    split
    · have hfifo : c.log.filterMap message = c.wire ++ [m] ++ rest := by
        rw [h.fifo, hq, append_assoc, singleton_append]
      exact { h with fifo := hfifo }
    · exact h

/-- A message behind a Reject is dropped in the state Authenticating, or finds `done` closed. -/
theorem dropped (hr : c.rejected = true) (hmarked : c.phase ≠ .marked) :
    c.state = .authenticating ∨ ∀ m, c.offer m = c := by
  cases hphase : c.phase with
  | live =>
    have hopen := h.placed.2 hphase
    have hactive := mt h.placed.1 (h.quiet hr).2
    cases hstate : c.state with
    | authenticating => exact .inl rfl
    | active => exact absurd hstate hactive
    | closed => exact absurd hstate hopen
  | marked => exact absurd hphase hmarked
  | _ => exact .inr fun m => by simp [Conn.offer, Conn.enqueue, hphase, Phase.accepts]

theorem not_rejected (hbusy : c.handler ≠ .idle) : c.rejected = false :=
  Bool.eq_false_iff.mpr fun hr => hbusy (h.quiet hr).1

variable (hn : c.rejected = false)
include hn

omit h in
theorem last_concat (n : Note) :
    ∀ pre n' post, c.log ++ [n] = pre ++ n' :: post → n'.isReject = true → post = [] := by
  intro pre n' post hl hn'
  rcases eq_nil_or_concat post with rfl | ⟨rest, a, rfl⟩
  · rfl
  · have hl' : c.log ++ [n] = (pre ++ n' :: rest) ++ [a] := by simpa using hl
    obtain ⟨hlog, -⟩ := append_inj' hl' rfl
    rw [rejected, hlog] at hn
    simp [hn'] at hn

theorem create (ref : SessionRef) (hearly : h'.mayReject = true ↔ ¬ sink) :
    Conn.Final { c with handler := h', log := c.log ++ [.created ref] } sink where
  fifo := by
    show (c.log ++ [created ref]).filterMap message = c.wire ++ c.queue
    simp [← h.fifo, message]
  last := last_concat hn _
  quiet := by
    intro hr
    simp only [rejected, any_append, Bool.or_eq_true] at hn hr
    simp [hn, isReject, message] at hr
  early _ := hearly
  placed := h.placed

theorem enqueue {m : Message} (he : c.enqueue m = some c')
    (hquiet : m.isReject = true → c.handler = .idle ∧ ¬ sink) : c'.Final sink := by
  unfold Conn.enqueue at he
  split_ifs at he
  cases he
  exact
    { fifo := by
        show (c.log ++ [queued m]).filterMap message = c.wire ++ (c.queue ++ [m])
        simp [← append_assoc, ← h.fifo, message]
      last := last_concat hn _
      quiet := by
        intro hr
        simp only [rejected, any_append, Bool.or_eq_true] at hn hr
        exact hquiet (by simpa [hn, isReject, message] using hr)
      early := h.early
      placed := h.placed }

theorem offer {m : Message} (hm : m.isReject = false) : (c.offer m).Final sink := by
  unfold Conn.offer
  cases he : c.enqueue m with
  | none => exact h
  | some c' => exact h.enqueue hn he (by simp [hm])

theorem reject (hs : ¬ sink) (type : RejectType) (reason : String) :
    (c.reject type reason).Final sink := by
  have hidle : Conn.Final { c with handler := .idle, closer := true } sink :=
    h.same rfl rfl rfl (by simp [hn]) (absurd rfl) h.placed
  have heq : c.reject type reason =
      Conn.offer { c with handler := .idle, closer := true } (.reject type reason) := by
    unfold Conn.reject Conn.offer Conn.enqueue
    split <;> rfl
  rw [heq]
  unfold Conn.offer
  cases he : Conn.enqueue { c with handler := .idle, closer := true } (.reject type reason) with
  | none => exact hidle
  | some c' => exact hidle.enqueue hn he fun _ => ⟨rfl, hs⟩

theorem goOn (hearly : h'.mayReject = true ↔ ¬ sink) : Conn.Final { c with handler := h' } sink :=
  h.same rfl rfl rfl (by simp [hn]) (fun _ => hearly) h.placed

end Conn.Final

/-! ### Runs -/

namespace System
variable {s : System} {k : ℕ} {c : Conn}

/-- An Authenticate is dispatched only while no Reject was queued on the connection and the control
transport has not begun to sync it; and behind a Reject no message is dispatched when `Close` has
set the state and not closed `done`. -/
def Admits (s : System) : Event → Prop
  | .conn k (.dispatch p) =>
    (s.conns[k]?).all (fun c => c.admits (decide (k ∈ s.sinks)) p) = true
  | _ => True

instance (s : System) : (e : Event) → Decidable (s.Admits e)
  | .conn _ (.dispatch _) => inferInstanceAs (Decidable (_ = true))
  | .connect | .table _ | .conn _ (.advance _) | .conn _ .deliver | .conn _ .kill | .conn _ .write
  | .conn _ .hangup | .conn _ (.flushed _) | .conn _ .release => isTrue trivial

/-- Every connection is as it should be. -/
def Finals (s : System) : Prop := ∀ k (c : Conn), s.conns[k]? = some c → c.Final (k ∈ s.sinks)

section steps
variable (h : s.Finals) (hk : s.conns[k]? = some c)
include h

theorem Finals.setConn {c' : Conn} (hc' : c'.Final (k ∈ s.sinks)) : (s.setConn k c').Finals := by
  intro j d hj
  rcases getElem?_set_cases hj with ⟨rfl, rfl⟩ | ⟨-, hj⟩
  · exact hc'
  · exact h j d hj

include hk

theorem Finals.dispatch {p : Packet} (hw : s.Admits (.conn k (.dispatch p))) :
    (s.dispatch k c p).Finals := by
  have hc := h k c hk
  unfold System.dispatch
  by_cases hidle : c.running = false ∨ c.handler ≠ .idle
  · rw [if_pos hidle]
    exact h
  rw [if_neg hidle]
  cases p with
  | version => exact h
  | authenticate a =>
    obtain ⟨hn, hs⟩ : c.rejected = false ∧ k ∉ s.sinks := by
      simpa [Admits, hk, Conn.admits] using hw
    dsimp only [Conn.authenticate]
    split_ifs
    · exact h.setConn (hc.reject hn hs _ _)
    · exact h.setConn (hc.reject hn hs _ _)
    · exact h.setConn (hc.goOn hn (iff_of_true rfl hs))
  | ping | other reply =>
    have hcases : c.rejected = false ∨ c.phase ≠ .marked := by
      simpa [Admits, hk, Conn.admits] using hw
    have hoffer (m : Message) (hm : m.isReject = false) (hstate : c.state ≠ .authenticating) :
        (s.setConn k (c.offer m)).Finals := by
      cases hr : c.rejected with
      | false => exact h.setConn (hc.offer hr hm)
      | true =>
        have hmarked := hcases.resolve_left (by simp [hr])
        rw [(hc.dropped hr hmarked).resolve_left hstate m]
        exact h.setConn hc
    dsimp only
    split_ifs with hdrop
    · exact h
    · exact hoffer _ rfl (by tauto)

theorem Finals.sink (hn : c.rejected = false) (hh : h'.mayReject = false) :
    ({ s with sinks := k :: s.sinks }.setConn k { c with handler := h' }).Finals := by
  have hc := h k c hk
  intro j d hj
  rcases getElem?_set_cases hj with ⟨rfl, rfl⟩ | ⟨hne, hj⟩
  · exact ⟨hc.fifo, hc.last, fun hr => absurd hr (by simpa [Conn.rejected] using hn),
      fun _ => iff_of_false (by simp [hh]) (not_not.mpr mem_cons_self), fun _ => mem_cons_self,
      hc.placed.2⟩
  · have hd := h j d hj
    have hsinks : j ∈ k :: s.sinks ↔ j ∈ s.sinks := by simp [hne]
    exact ⟨hd.fifo, hd.last, fun hr => (hd.quiet hr).imp_right fun hs => mt hsinks.mp hs,
      fun hbusy => (hd.early hbusy).trans (not_congr hsinks.symm),
      fun ha => hsinks.mpr (hd.placed.1 ha), hd.placed.2⟩

/-- The phases in which `handleAuthenticate` may still send a Reject. -/
theorem Finals.advance_early (hm : c.handler.mayReject = true) (ok : Bool) :
    (s.advance k c ok).Finals := by
  have hc := h k c hk
  have hbusy : c.handler ≠ .idle := fun hidle => by simp [hidle, Handler.mayReject] at hm
  have hn := hc.not_rejected hbusy
  have hs := (hc.early hbusy).mp hm
  have hreject (type : RejectType) (reason : String) :
      (s.setConn k (c.reject type reason)).Finals := h.setConn (hc.reject hn hs type reason)
  have hgo {h' : Handler} (hh' : h'.mayReject = true) :
      (s.setConn k { c with handler := h' }).Finals :=
    h.setConn (hc.goOn hn (iff_of_true hh' hs))
  unfold System.advance
  cases hh : c.handler with
  | checking a =>
    dsimp only
    split_ifs
    · exact hreject _ _
    · exact hgo rfl
  | counting a =>
    dsimp only
    split_ifs
    · exact hreject _ _
    · exact hreject _ _
    · exact hreject _ _
    · exact hgo rfl
  | asking answer =>
    cases answer with
    | failed | denied => exact hreject _ _
    | allowed u => exact hgo rfl
  | adding u =>
    dsimp only
    rcases s.users.add u with ⟨users, _ | stored⟩
    · exact hreject _ _
    · exact h.setConn (hc.create hn _ (iff_of_true rfl hs))
  | numbering x | stamping x | backing x =>
    exact h.setConn (hc.same rfl rfl rfl (by simp [hn]) (fun _ => iff_of_true rfl hs) hc.placed)
  | binding x =>
    dsimp only
    cases s.registry.bind x localEdgeID with
    | error | ok => exact hgo rfl
  | beginning x =>
    dsimp only
    split_ifs
    · exact h.sink hk hn rfl
    · exact hgo rfl
  | undoing x => exact hreject _ _
  | _ => simp [hh, Handler.mayReject] at hm

/-- The phases in which the control transport has a queue for the connection. -/
theorem Finals.advance_late (hbusy : c.handler ≠ .idle) (hm : c.handler.mayReject = false)
    (ok : Bool) : (s.advance k c ok).Finals := by
  have hc := h k c hk
  have hn := hc.not_rejected hbusy
  have hlate {h' : Handler} (hh' : h'.mayReject = false) : h'.mayReject = true ↔ k ∉ s.sinks := by
    rw [← hc.early hbusy, hm, hh']
  have hgo {h' : Handler} (hh' : h'.mayReject = false) :
      (s.setConn k { c with handler := h' }).Finals := h.setConn (hc.goOn hn (hlate hh'))
  unfold System.advance
  cases hh : c.handler with
  | idle => exact h
  | ciphering x =>
    cases he : c.enqueue .cryptSetup with
    | none => exact hgo rfl
    | some c' =>
      have hc' := hc.enqueue hn he (by simp [Message.isReject])
      have hbusy' : c'.handler ≠ .idle := by rwa [(Conn.enqueue_eq_some he).1]
      exact h.setConn (hc'.goOn (hc'.not_rejected hbusy') (hlate rfl))
  | syncing x | committing x =>
    dsimp only
    split <;> exact hgo rfl
  | activating x =>
    have hsink : k ∈ s.sinks := by simpa [hm] using hc.early hbusy
    exact h.setConn (hc.same rfl rfl rfl (by simp [hn]) (absurd rfl) ⟨fun _ => hsink, nofun⟩)
  | leaving x => exact hgo rfl
  | removing x =>
    exact h.setConn (hc.same rfl rfl rfl (by simp [hn]) (absurd rfl) hc.placed)
  | aborting x =>
    have hc' : (if ok then c.close else c).Final (k ∈ s.sinks) := by
      split
      · exact hc.close
      · exact hc
    have hbusy' : (if ok then c.close else c).handler ≠ .idle := by
      split
      · rwa [c.close_handler]
      · exact hbusy
    exact h.setConn (hc'.goOn (hc'.not_rejected hbusy') (hlate rfl))
  | _ => simp [hh, Handler.mayReject] at hm

theorem Finals.advance (ok : Bool) : (s.advance k c ok).Finals := by
  by_cases hidle : c.handler = .idle
  · simpa only [System.advance, hidle] using h
  cases hm : c.handler.mayReject with
  | true => exact h.advance_early hk hm ok
  | false => exact h.advance_late hk hidle hm ok

theorem Finals.release : (s.release k c).Finals := by
  have hc := h k c hk
  unfold System.release
  cases c.phase with
  | live | gone => exact h
  | marked | ended | closed | leaving | removing =>
    exact h.setConn (hc.same rfl rfl rfl hc.quiet hc.early ⟨hc.placed.1, nofun⟩)
  | reading sid =>
    refine h.setConn (hc.same rfl rfl rfl hc.quiet hc.early ⟨hc.placed.1, fun hlive => ?_⟩)
    dsimp only at hlive
    split at hlive <;> cases hlive

theorem Finals.act {a : ConnAction} (hw : s.Admits (.conn k a)) : (s.act k c a).Finals := by
  have hc := h k c hk
  cases a with
  | dispatch p => exact h.dispatch hk hw
  | advance ok => exact h.advance hk ok
  | release => exact h.release hk
  | write => exact h.setConn hc.write
  | deliver =>
    dsimp only [System.act]
    split_ifs with hs
    · have hn : c.rejected = false :=
        Bool.eq_false_iff.mpr fun hr => (hc.quiet hr).2 hs
      exact h.setConn (hc.offer hn rfl)
    · exact h
  | kill | flushed expired =>
    dsimp only [System.act]
    split_ifs
    · exact h.setConn hc.close
    · exact h
  | hangup =>
    dsimp only [System.act]
    split_ifs
    · exact h
    · exact h.setConn (hc.close.same rfl rfl rfl hc.close.quiet hc.close.early hc.close.placed)

end steps

theorem conns_tableAct (s : System) (a : TableAction) :
    (s.tableAct a).conns = s.conns ∧ (s.tableAct a).sinks = s.sinks := by
  cases a with
  | unbind | remove | update | identity => exact ⟨rfl, rfl⟩
  | beginClose | commit =>
    dsimp only [System.tableAct]
    split <;> exact ⟨rfl, rfl⟩
  | login u edge =>
    dsimp only [System.tableAct]
    split
    · exact ⟨rfl, rfl⟩
    · split <;> exact ⟨rfl, rfl⟩

theorem Finals.step (s : System) (e : Event) (h : s.Finals) (hw : s.Admits e) :
    (s.step e).Finals := by
  cases e with
  | connect =>
    intro j d hj
    rcases getElem?_concat_cases hj with ⟨-, rfl⟩ | hj
    · have hfirst : ({} : Conn).Final (j ∈ s.sinks) :=
        ⟨rfl, by simp, by simp [Conn.rejected], absurd rfl, nofun, nofun⟩
      exact hfirst.offer rfl rfl
    · exact h j d hj
  | table a =>
    obtain ⟨hconns, hsinks⟩ := s.conns_tableAct a
    intro j d hj
    rw [show (s.step (.table a)).sinks = s.sinks from hsinks]
    exact h j d (hconns ▸ hj)
  | conn k a =>
    unfold System.step
    dsimp only
    cases hk : s.conns[k]? with
    | none => exact h
    | some c => exact h.act hk hw

end System

/-- **A Reject is final**: in every run in which clients do not authenticate again after a Reject or
after an initial sync has begun, and no message behind a Reject falls between the two accesses of
`Close`, nothing is written to a client after a Reject, and no session is created. -/
theorem reject_is_final (maxUsers : ℕ) (events : List Event)
    (h : Along System.step System.Admits (.start maxUsers) events) (k : ℕ) (c : Conn)
    (hk : (run System.step (.start maxUsers) events).conns[k]? = some c) : c.RejectFinal := by
  have hinv : (run System.step (.start maxUsers) events).Finals :=
    run_inv System.Finals.step (by simp [System.Finals, System.start]) h
  exact (hinv k c hk).rejectFinal

def refused : List Event :=
  [.connect, .conn 0 (.dispatch (.authenticate { username := "", answer := .denied }))]

/-- The write loop writes what is queued. -/
def writes (n : ℕ) : List Event := List.replicate n (.conn 0 .write)

/-- A client sends a Ping and more behind an Authenticate that is refused; another Ping is
dispatched when `Close` has closed `done`. -/
def eager : List Event :=
  refused ++ [.conn 0 (.dispatch .ping), .conn 0 (.dispatch (.other true))] ++ writes 3 ++
    [.conn 0 (.flushed false), .conn 0 .release, .conn 0 (.dispatch .ping)] ++ writes 1

theorem reject_is_final_refused :
    Along System.step System.Admits (.start 10) eager ∧
    ({ closer := true, phase := .ended, state := .closed,
       wire := [.version, .reject .invalidUsername "Username required"],
       log := [.queued .version, .queued (.reject .invalidUsername "Username required")] } :
      Conn).RejectFinal :=
  have h : Along System.step System.Admits (.start 10) eager := by decide +kernel
  ⟨h, reject_is_final 10 eager h 0 _ (by decide +kernel)⟩

/-- The client sends an Authenticate that is refused and at once a good one. -/
def pipelined : List Event := refused ++ login "bob" ++ writes 3

/-- A client that has a session authenticates again, and gets another message before the
connection is closed. -/
def twice : List Event :=
  .connect :: login "bob" ++
    [.conn 0 (.dispatch (.authenticate { username := "", answer := .denied })), .conn 0 .deliver] ++
    writes 4

/-- A Ping follows the Authenticate, and is dispatched when `Close` has set the state but not
closed `done`: the read loop drops it in the state Authenticating only. -/
def pinging : List Event :=
  refused ++ [.conn 0 (.flushed true), .conn 0 (.dispatch .ping)] ++ writes 3

/-- In each of them something is written after the Reject, and the first one creates a session. -/
theorem written_after_reject :
    ((run System.step (.start 10) pipelined).conns.map fun c => (c.wire, c.log)) =
      [([.version, .reject .invalidUsername "Username required", .cryptSetup],
        [.queued .version, .queued (.reject .invalidUsername "Username required"),
          .created ⟨1, 1⟩, .queued .cryptSetup])] ∧
    (run System.step (.start 10) pipelined).Live ⟨1, 1⟩ ∧
    ((run System.step (.start 10) twice).conns.map fun c => c.wire) =
      [[.version, .cryptSetup, .reject .invalidUsername "Username required", .control]] ∧
    ((run System.step (.start 10) pinging).conns.map fun c => c.wire) =
      [[.version, .reject .invalidUsername "Username required", .ping]] ∧
    ∀ c ∈ (run System.step (.start 10) pipelined).conns, ¬ c.RejectFinal := by
  have hwire : ((run System.step (.start 10) pipelined).conns.map fun c => (c.wire, c.log)) =
      [([.version, .reject .invalidUsername "Username required", .cryptSetup],
        [.queued .version, .queued (.reject .invalidUsername "Username required"),
          .created ⟨1, 1⟩, .queued .cryptSetup])] := by
    decide +kernel
  refine ⟨hwire, by decide +kernel, by decide +kernel, by decide +kernel, fun c hc hfinal => ?_⟩
  have hmem := mem_map_of_mem (f := fun c : Conn => (c.wire, c.log)) hc
  rw [hwire, mem_singleton] at hmem
  have hnil := hfinal.1 [.version] _ [.cryptSetup] (congrArg Prod.fst hmem) rfl
  cases hnil

end MumbleServer.LocalLogin

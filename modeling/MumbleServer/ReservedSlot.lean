import MumbleServer.ControlOrder

/-! # The reserved slot of a control queue

The channel of a control queue holds one command more than the limit, and only a barrier or a final
message may take the last slot.  In a queue that is open there are never more messages than the
limit and never more than one barrier (`Session.Roomy`).  So the barrier always finds room.  A final
message does not when the barrier has taken the slot: the barrier then waits with as many messages
as the limit allows, and the queue fails. -/

namespace MumbleServer.Control

open List

variable {M : Type}

/-- The operations that may take the reserved slot. -/
def Op.reserved : Op M → Bool
  | .commitSync | .close _ => true
  | _ => false

/-- The command that `close` puts in the queue. -/
def finalCommand (final : Option M) (call : ℕ) : Command M :=
  { message := final, flush := true, final := true, done := some call }

/-- In the event call `i` works on queue `l` under its lock. -/
structure Starts (t : Transport M) (e : Event M) (i : ℕ) (op : Op M) (state : SessionState)
    (l : Line M) : Prop where
  event : ∃ wake, e = .step i wake
  call : ∃ j, t.calls[i]? = some ⟨op, .locked j⟩ ∧ t.lines[j]? = some l
  bound : t.state = some state

/-- A barrier or a final message for an open queue is not refused for lack of space, and the final
message is in the queue afterwards. -/
def ReservedFits (t : Transport M) (e : Event M) : Prop :=
  ∀ i op state l, Starts t e i op state l → op.reserved = true → l.cs.closed = false →
    (op.start i state l).2 ≠ .error .overflow ∧
      ∀ final, op = .close final → finalCommand final i ∈ (op.start i state l).1.cs.queue

/-- A close finds an open queue in which a barrier waits together with as many messages as the limit
allows. -/
def ClosesBehindBarrier (t : Transport M) (e : Event M) : Prop :=
  ∃ i final state l, Starts t e i (.close final) state l ∧ l.cs.closed = false ∧
    (∃ cmd ∈ l.cs.queue, cmd.done.isSome = true) ∧
    l.cs.limit ≤ l.cs.queue.countP fun cmd => cmd.done.isNone

/-- What an open queue holds: messages up to the limit, and one barrier at most. -/
structure Session.Roomy (cs : Session M) : Prop where
  messages : cs.queue.countP (fun cmd => cmd.done.isNone) ≤ cs.limit
  barriers : cs.queue.countP (fun cmd => cmd.done.isSome) ≤ 1

variable {state : SessionState}

section sessions
variable {cs : Session M}

theorem Session.length_queue (cs : Session M) : cs.queue.length =
    cs.queue.countP (fun cmd => cmd.done.isNone) + cs.queue.countP fun cmd => cmd.done.isSome := by
  rw [length_eq_countP_add_countP fun cmd : Command M => cmd.done.isNone]
  congr 1
  refine countP_congr fun cmd _ => ?_
  cases cmd.done <;> simp

section
variable (h : cs.closed = false → cs.Roomy)
include h

theorem Session.Roomy.failLocked (err : Error)
    (hc : (cs.failLocked err).closed = false) : (cs.failLocked err).Roomy := by
  unfold Session.failLocked at hc ⊢
  split_ifs at hc ⊢
  · exact h hc
  · cases hc

theorem Session.Roomy.enqueueLocked (m : M)
    (hc : (cs.enqueueLocked { message := some m } false).1.closed = false) :
    (cs.enqueueLocked { message := some m } false).1.Roomy := by
  unfold Session.enqueueLocked at hc ⊢
  split_ifs at hc ⊢ with hfull hroom
  · exact .failLocked h .overflow hc
  · have hlimit : cs.queue.length < cs.limit := Nat.lt_of_not_le fun hle => hfull ⟨rfl, hle⟩
    have hlength := cs.length_queue
    refine ⟨?_, ?_⟩
    · simp only [countP_append, countP_singleton, Option.isNone_none, if_true]
      omega
    · simpa using (h hc).barriers
  · exact .failLocked h .overflow hc

theorem Session.Roomy.enqueueAll (ms : List M)
    (hc : (cs.enqueueAll ms).1.closed = false) : (cs.enqueueAll ms).1.Roomy := by
  induction ms generalizing cs with
  | nil => exact h hc
  | cons m rest ih =>
    have hone := Session.Roomy.enqueueLocked h m
    unfold Session.enqueueAll at hc ⊢
    rcases he : cs.enqueueLocked { message := some m } false with ⟨cs', err | _⟩
    · rw [he] at hc hone
      exact hone hc
    · rw [he] at hc hone
      exact ih hone hc

theorem Session.Roomy.sendInitial (state : SessionState) (m : M)
    (hc : (cs.sendInitial state m).1.closed = false) : (cs.sendInitial state m).1.Roomy := by
  unfold Session.sendInitial at hc ⊢
  split_ifs at hc ⊢
  · exact h hc
  · exact h hc
  · exact .enqueueLocked h m hc

theorem Session.Roomy.send (state : SessionState) (m : M)
    (hc : (cs.send state m).1.closed = false) : (cs.send state m).1.Roomy := by
  unfold Session.send at hc ⊢
  cases state with
  | syncing =>
    split_ifs at hc ⊢
    · exact h hc
    · exact .failLocked h .overflow hc
    · exact ⟨(h hc).messages, (h hc).barriers⟩
  | active =>
    dsimp only at hc ⊢
    split_ifs at hc ⊢
    · exact h hc
    · exact .enqueueLocked h m hc
  | closing =>
    dsimp only at hc ⊢
    split_ifs at hc ⊢
    · exact h hc
    · exact h hc

/-- The barrier is the only one, and it finds room. -/
theorem Session.Roomy.startCommit
    (hnone : cs.closed = false → state = .syncing → cs.committing = false →
      ∀ cmd ∈ cs.queue, cmd.done = none) (call : ℕ) :
    (cs.startCommit state call).2 ≠ .error .overflow ∧
      ((cs.startCommit state call).1.closed = false → (cs.startCommit state call).1.Roomy) := by
  unfold Session.startCommit
  split_ifs with hs
  · exact ⟨by simp, h⟩
  · obtain ⟨hc, hsync, hcom⟩ : cs.closed = false ∧ state = .syncing ∧ cs.committing = false := by
      simpa using hs
    have hroomy := h hc
    have hzero : cs.queue.countP (fun cmd => cmd.done.isSome) = 0 := by
      refine countP_eq_zero.mpr fun cmd hcmd => ?_
      simp [hnone hc hsync hcom cmd hcmd]
    have hlength := cs.length_queue
    have hroom : cs.queue.length < cs.limit + 1 := by
      have := hroomy.messages
      omega
    unfold Session.enqueueLocked
    rw [if_neg (by simp), if_pos hroom]
    refine ⟨by simp, fun _ => ⟨?_, ?_⟩⟩
    · simpa using hroomy.messages
    · simp [hzero]

theorem Session.Roomy.finishCommit (state : Option SessionState)
    (hc : (cs.finishCommit state).1.closed = false) : (cs.finishCommit state).1.Roomy := by
  have hopen : ({ cs with committing := false } : Session M).closed = false →
      ({ cs with committing := false } : Session M).Roomy := fun hc =>
    ⟨(h hc).messages, (h hc).barriers⟩
  have hall := Session.Roomy.enqueueAll hopen cs.deferred
  unfold Session.finishCommit at hc ⊢
  dsimp only at hc ⊢
  split_ifs at hc ⊢
  · exact hopen hc
  · rcases he : ({ cs with committing := false } : Session M).enqueueAll cs.deferred with
      ⟨cs', err | _⟩
    · rw [he] at hc hall
      exact hall hc
    · rw [he] at hc hall
      exact ⟨(hall hc).messages, (hall hc).barriers⟩

end

/-- After a close the queue is not open, whether the final message was taken or not. -/
theorem Session.startClose_closed (cs : Session M) (final : Option M) (call : ℕ) :
    (cs.startClose final call).1.closed = true := by
  unfold Session.startClose
  split_ifs with hc
  · exact hc
  · unfold Session.enqueueLocked Session.failLocked
    split_ifs <;> rfl

theorem Session.Roomy.startClose (h : cs.Roomy) (hc : cs.closed = false) (final : Option M)
    (call : ℕ) :
    ((cs.startClose final call).2 = .error .overflow ↔
      (∃ cmd ∈ cs.queue, cmd.done.isSome = true) ∧
        cs.limit ≤ cs.queue.countP fun cmd => cmd.done.isNone) ∧
    ((cs.startClose final call).2 ≠ .error .overflow →
      finalCommand final call ∈ (cs.startClose final call).1.queue) := by
  have hlength := cs.length_queue
  have hbarriers := h.barriers
  have hmessages := h.messages
  rw [← countP_pos_iff]
  unfold Session.startClose Session.enqueueLocked
  rw [if_neg (by simp [hc]), if_neg (by simp)]
  dsimp only
  split_ifs with hroom
  · refine ⟨⟨fun hr => by simp at hr, fun hfull => ?_⟩, fun _ => ?_⟩
    · omega
    · exact mem_append_right _ (mem_singleton_self _)
  · refine ⟨⟨fun _ => by omega, fun _ => rfl⟩, fun hr => absurd rfl hr⟩

end sessions

section transport
variable {t : Transport M}
variable {l : Line M}

/-- What the worker does to the queue: it takes a command, or the queue fails. -/
theorem Line.work_cs (l : Line M) (ok : Bool) :
    (l.work ok).cs = l.cs ∨
    (∃ cmd rest, l.cs.queue = cmd :: rest ∧ (l.work ok).cs = { l.cs with queue := rest }) ∨
    ∃ err, (l.work ok).cs = l.cs.failLocked err := by
  unfold Line.work
  cases l.worker with
  | idle =>
    dsimp only
    split_ifs
    · cases l.cs.queue with
      | nil => exact .inl rfl
      | cons cmd rest => exact .inr (.inl ⟨cmd, rest, rfl, rfl⟩)
    · exact .inl rfl
    · exact .inl rfl
  | holding cmd =>
    dsimp only
    split_ifs
    · exact .inl rfl
    · cases cmd.message with
      | none | some m => exact .inl rfl
  | writing cmd m | flushing cmd | answering cmd err | exited => exact .inl rfl
  | failing cmd err => exact .inr (.inr ⟨err, rfl⟩)

theorem Session.Roomy.work (h : l.cs.closed = false → l.cs.Roomy) (ok : Bool)
    (hc : (l.work ok).cs.closed = false) : (l.work ok).cs.Roomy := by
  rcases l.work_cs ok with hcs | ⟨cmd, rest, hq, hcs⟩ | ⟨err, hcs⟩
  · rw [hcs] at hc ⊢
    exact h hc
  · rw [hcs] at hc ⊢
    have hmessages := (h hc).messages
    have hbarriers := (h hc).barriers
    rw [hq, countP_cons] at hmessages hbarriers
    exact ⟨Nat.le_of_add_right_le hmessages, Nat.le_of_add_right_le hbarriers⟩
  · rw [hcs] at hc ⊢
    exact .failLocked h err hc

/-- During the sync no barrier is in the queue unless a commit is under way. -/
theorem Line.Inv.no_barrier (h : l.Inv (some state)) (hc : l.cs.closed = false)
    (hs : state = .syncing) (hcom : l.cs.committing = false) :
    ∀ cmd ∈ l.cs.queue, cmd.done = none := by
  intro cmd hcmd
  rcases h.barred hc (congrArg some hs) with ⟨-, hdone, -⟩ | ⟨htrue, -⟩
  · exact hdone cmd (mem_append_right _ hcmd)
  · rw [hcom] at htrue
    cases htrue

theorem Session.Roomy.start (hinv : l.Inv (some state)) (h : l.cs.closed = false → l.cs.Roomy)
    (op : Op M) (i : ℕ) (hc : (op.start i state l).1.cs.closed = false) :
    (op.start i state l).1.cs.Roomy := by
  cases op with
  | sendInitial m => exact .sendInitial h state m hc
  | send m => exact .send h state m hc
  | commitSync => exact (Session.Roomy.startCommit h hinv.no_barrier i).2 hc
  | close final =>
    have hclosed := l.cs.startClose_closed final i
    have hc : (l.cs.startClose final i).1.closed = false := hc
    rw [hclosed] at hc
    cases hc
  | abortSync | detach => exact h hc

/-- Every open queue is as it should be. -/
def Transport.Roomy (t : Transport M) : Prop := ∀ l ∈ t.lines, l.cs.closed = false → l.cs.Roomy

theorem Transport.Roomy.setLine (h : t.Roomy) (j : ℕ)
    (hl : l.cs.closed = false → l.cs.Roomy) : (t.setLine j l).Roomy := by
  intro k hk
  rcases mem_or_eq_of_mem_set hk with hk | rfl
  · exact h k hk
  · exact hl

open Transport

theorem Transport.Roomy.withLine (h : t.Roomy) (j : ℕ) {f : Line M → Transport M}
    (hf : ∀ l, t.lines[j]? = some l → (f l).Roomy) : (t.withLine j f).Roomy := by
  unfold Transport.withLine
  cases hl : t.lines[j]? with
  | none => exact h
  | some l => exact hf l hl

theorem Transport.Roomy.stepCall (h : t.Roomy) (hinv : t.Inv) (i : ℕ) (c : Call M) (wake : Wake) :
    (t.stepCall i c wake).Roomy := by
  have hline : ∀ {j : ℕ} {l : Line M}, t.lines[j]? = some l → l.cs.closed = false → l.cs.Roomy :=
    fun hl => h _ (mem_of_getElem? hl)
  unfold Transport.stepCall
  cases c.phase with
  | lookup =>
    dsimp only
    unfold lookup
    split <;> exact h
  | locked j =>
    refine h.withLine j fun l hl => ?_
    unfold start
    cases hs : t.state with
    | none => exact h
    | some state =>
      have hl' := mem_of_line hinv hl
      rw [hs] at hl'
      exact h.setLine j (.start hl' (hline hl) c.op i)
  | waiting j =>
    refine h.withLine j fun l hl => ?_
    cases wake with
    | done =>
      unfold await
      dsimp only
      split <;> exact h
    | stop =>
      unfold await
      split_ifs <;> exact h
    | deadline => exact h.setLine j (.failLocked (hline hl) .deadline)
  | checking j | taking r | returned r => exact h
  | committing j =>
    refine h.withLine j fun l hl => ?_
    have hfinish : (l.finishCommit t.state).1.cs.closed = false →
        (l.finishCommit t.state).1.cs.Roomy := .finishCommit (hline hl) t.state
    unfold commit
    rcases hr : l.finishCommit t.state with ⟨l', err | _⟩
    · rw [hr] at hfinish
      exact h.setLine j hfinish
    · rw [hr] at hfinish
      exact h.setLine j hfinish
  | stopping j => exact h.withLine j fun l _ => h.setLine j fun hc => by cases hc

theorem Transport.Roomy.step (h : t.Roomy) (hinv : t.Inv) (e : Event M) : (t.step e).Roomy := by
  cases e with
  | beginSync limit =>
    show (t.beginSync limit).Roomy
    unfold beginSync
    split_ifs
    · exact h
    · intro l hl
      rcases mem_append.mp hl with hl | hl
      · exact h l hl
      · rw [mem_singleton.mp hl]
        exact fun _ => ⟨Nat.zero_le _, Nat.zero_le _⟩
  | call op | commitActive | beginClose | unbind => exact h
  | step i wake =>
    dsimp only [Transport.step]
    cases t.calls[i]? with
    | none => exact h
    | some c => exact h.stepCall hinv i c wake
  | work j ok =>
    exact h.withLine j fun l hl => h.setLine j (.work (h l (mem_of_getElem? hl)) ok)

theorem Transport.Roomy.reservedFits_iff (h : t.Roomy) (hinv : t.Inv) (e : Event M) :
    ReservedFits t e ↔ ¬ClosesBehindBarrier t e := by
  have hline : ∀ {i op state l}, Starts t e i op state l →
      l.Inv (some state) ∧ (l.cs.closed = false → l.cs.Roomy) := by
    intro i op state l hstarts
    obtain ⟨j, -, hl⟩ := hstarts.call
    refine ⟨?_, h l (mem_of_getElem? hl)⟩
    rw [← hstarts.bound]
    exact mem_of_line hinv hl
  constructor
  · rintro hfits ⟨i, final, state, l, hstarts, hc, hbehind⟩
    have hclose := (((hline hstarts).2 hc).startClose hc final i).1
    exact (hfits i (.close final) state l hstarts rfl hc).1 (hclose.mpr hbehind)
  · intro hnot i op state l hstarts hreserved hc
    obtain ⟨hl, hroomy⟩ := hline hstarts
    cases op with
    | commitSync =>
      refine ⟨(Session.Roomy.startCommit hroomy hl.no_barrier i).1, fun final hop => ?_⟩
      cases hop
    | close final =>
      obtain ⟨hclose, hmem⟩ := (hroomy hc).startClose hc final i
      have hroom : (l.cs.startClose final i).2 ≠ .error .overflow := fun hr =>
        hnot ⟨i, final, state, l, hstarts, hc, hclose.mp hr⟩
      refine ⟨hroom, fun final' hop => ?_⟩
      obtain rfl : final = final' := by injection hop
      exact hmem hroom
    | _ => cases hreserved

end transport

/-- **The reserved slot.** In a run of the transport every barrier and every final message for an
open queue finds room exactly if no close comes while the barrier waits with as many messages as the
limit allows. -/
theorem reserved_fits_iff (es : List (Event M)) :
    Along Transport.step ReservedFits Transport.bound es ↔
      Along Transport.step (fun t e => ¬ClosesBehindBarrier t e) Transport.bound es := by
  refine along_iff_of_inv_true (fun t : Transport M => t.Inv ∧ t.Roomy)
    (fun t e h => h.2.reservedFits_iff h.1 e)
    (fun t e h _ => ⟨(Transport.keeps_step h.1 e).inv, h.2.step h.1 e⟩) ?_ es
  exact ⟨Transport.inv_bound, by simp [Transport.Roomy, Transport.bound]⟩

deriving instance DecidableEq for Op, Phase, Call

/-- The sync of a session whose worker does not get to write: its messages fill the queue, the
barrier takes the reserved slot, and the session is kicked.  The queue has the limit that the server
uses. -/
def kickedInSync : List (Event ℕ) :=
  .beginSync 64 ::
    (List.range 64).flatMap (fun i => [.call (.sendInitial i), .step i .done, .step i .done]) ++
    [.call .commitSync, .step 64 .done, .step 64 .done, .call (.close (some 0)), .step 65 .done]

theorem kick_refused :
    ¬Along Transport.step ReservedFits Transport.bound (kickedInSync ++ [.step 65 .done]) := by
  intro h
  have hfits := h.at
  have hrun :
      (run Transport.step Transport.bound kickedInSync).calls[65]? =
        some ⟨.close (some 0), .locked 0⟩ ∧
      ((run Transport.step Transport.bound kickedInSync).lines[0]?.any fun l =>
        !l.cs.closed && decide ((l.startClose (some 0) 65).2 = .error .overflow)) = true ∧
      (run Transport.step Transport.bound kickedInSync).state = some .syncing := by
    decide +kernel
  generalize run Transport.step Transport.bound kickedInSync = t at hfits hrun
  obtain ⟨hcall, hline, hstate⟩ := hrun
  cases hl : t.lines[0]? with
  | none =>
    rw [hl] at hline
    cases hline
  | some l =>
    rw [hl] at hline
    obtain ⟨hopen, hrefused⟩ : l.cs.closed = false ∧
        (l.startClose (some 0) 65).2 = .error .overflow := by simpa using hline
    have hstarts : Starts t (.step 65 .done) 65 (.close (some 0)) .syncing l :=
      ⟨⟨.done, rfl⟩, ⟨0, hcall, hl⟩, hstate⟩
    exact (hfits 65 (.close (some 0)) .syncing l hstarts rfl hopen).1 hrefused

end MumbleServer.Control

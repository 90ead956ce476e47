import MumbleServer.Connection

/-! # Write receipts

`AwaitFlush` returns when `pending` is 0.  The counter is the number of requests that a goroutine
has counted and not queued, that are in the queue, or that the write loop is busy with
(`Receipt.counted`).  So at 0 everything that was queued has gone through the write loop.  That it
has reached the socket holds only if no write has failed: `writeOne` does not look at the result. -/

namespace MumbleServer.Connection

open List

variable {Req : Type}

/-- The goroutine has counted a request that is not in the queue. -/
def Routine.counts : Routine Req → Bool
  | .sending _ | .undoing => true
  | _ => false

/-- The write loop is busy with a request that is counted. -/
def Writer.busy : Writer Req → ℕ
  | .writing _ _ | .wrote => 1
  | _ => 0

def Writer.inWrite : Writer Req → Bool
  | .writing _ _ => true
  | _ => false

/-- The request of goroutine `i` is in the queue, with the write loop, or written. -/
def Conn.Holds (s : Conn Req) (i : ℕ) : Prop :=
  i ∈ s.queue.map Prod.fst ∨ (∃ req, s.writer = .writing i req) ∨ i ∈ s.written

/-- What the counter means, where queued requests are, and what a receipt says. -/
structure Receipt (s : Conn Req) : Prop where
  counted : s.pending =
    ((s.routines.countP Routine.counts + s.queue.length + s.writer.busy : ℕ) : Int)
  placed : ∀ i : ℕ, s.routines[i]? = some .queued → s.Holds i
  owed : ∀ (j : ℕ) (owed : List ℕ), s.routines[j]? = some (.awaiting owed) →
    ∀ i ∈ owed, s.routines[i]? = some .queued
  paid : ∀ (j : ℕ) (owed : List ℕ), s.routines[j]? = some (.flushed owed) →
    ∀ i ∈ owed, i ∈ s.written

/-- No write to the socket fails. -/
def WritesSucceed (s : Conn Req) : Event Req → Prop
  | .write ok => s.writer.inWrite = true → s.writes ok = true
  | _ => True

instance (s : Conn Req) : ∀ e, Decidable (WritesSucceed s e)
  | .write ok => inferInstanceAs (Decidable (s.writer.inWrite = true → s.writes ok = true))
  | .call _ | .advance _ _ | .start | .take | .release | .stop => isTrue trivial

section receipt
variable {s : Conn Req}
variable {i : ℕ} {t : Conn Req}

theorem mem_accepted : i ∈ s.accepted ↔ s.routines[i]? = some .queued := by
  unfold Conn.accepted
  rw [mem_filter, mem_range]
  constructor
  · rintro ⟨-, h⟩
    split at h
    · assumption
    · cases h
  · intro h
    refine ⟨(List.getElem?_eq_some_iff.mp h).1, ?_⟩
    rw [h]

section
variable (h : Receipt s)
include h

/-- When the counter is 0, everything that was queued is written. -/
theorem Receipt.written_of_pending (hp : s.pending ≤ 0)
    (hi : s.routines[i]? = some .queued) : i ∈ s.written := by
  have hzero := h.counted
  rcases h.placed i hi with hq | ⟨req, hw⟩ | hw
  · have hlen : 0 < s.queue.length := by
      rw [← length_map (f := Prod.fst)]
      exact length_pos_of_mem hq
    omega
  · rw [hw] at hzero
    simp only [Writer.busy] at hzero
    omega
  · exact hw

theorem Receipt.put {r r' : Routine Req} (hi : s.routines[i]? = some r)
    (hr : r ≠ .queued) (hroutines : t.routines = s.routines)
    (hwriter : t.writer = s.writer) (hwritten : t.written = s.written)
    (hpending : t.pending + (if r.counts then 1 else 0) + s.queue.length =
      s.pending + (if r'.counts then 1 else 0) + t.queue.length)
    (hqueue : s.queue.map Prod.fst ⊆ t.queue.map Prod.fst)
    (hqueued : r' = .queued → i ∈ t.queue.map Prod.fst)
    (howed : ∀ owed, r' ≠ .awaiting owed)
    (hpaid : ∀ owed, r' = .flushed owed → ∀ j ∈ owed, j ∈ s.written) :
    Receipt (t.put i r') where
  counted := by
    have hcount := countP_set_add Routine.counts hi r'
    have hold := h.counted
    show t.pending = (((t.routines.set i r').countP Routine.counts + t.queue.length +
      t.writer.busy : ℕ) : Int)
    rw [hroutines, hwriter]
    split_ifs at hcount hpending <;> omega
  placed j hj := by
    show j ∈ t.queue.map Prod.fst ∨ (∃ req, t.writer = .writing j req) ∨ j ∈ t.written
    have hj : (t.routines.set i r')[j]? = some .queued := hj
    rw [hroutines] at hj
    rw [hwriter, hwritten]
    rcases getElem?_set_cases hj with ⟨rfl, hq⟩ | ⟨-, hold⟩
    · exact .inl (hqueued hq.symm)
    · exact (h.placed j hold).imp_left fun hq => hqueue hq
  owed j owed hj k hk := by
    have hj : (t.routines.set i r')[j]? = some (.awaiting owed) := hj
    show (t.routines.set i r')[k]? = some .queued
    rw [hroutines] at hj ⊢
    rcases getElem?_set_cases hj with ⟨-, hq⟩ | ⟨-, hold⟩
    · exact absurd hq.symm (howed owed)
    · have hkept := h.owed j owed hold k hk
      have hne : i ≠ k := by
        rintro rfl
        rw [hi] at hkept
        exact hr (Option.some.inj hkept)
      rw [getElem?_set_ne hne, hkept]
  paid j owed hj k hk := by
    have hj : (t.routines.set i r')[j]? = some (.flushed owed) := hj
    show k ∈ t.written
    rw [hroutines] at hj
    rw [hwritten]
    rcases getElem?_set_cases hj with ⟨-, hq⟩ | ⟨-, hold⟩
    · exact hpaid owed hq.symm k hk
    · exact h.paid j owed hold k hk

theorem Receipt.put_plain {r r' : Routine Req}
    (hi : s.routines[i]? = some r) (hr : r ≠ .queued)
    (hroutines : t.routines = s.routines) (hwriter : t.writer = s.writer)
    (hwritten : t.written = s.written) (hqueue : t.queue = s.queue)
    (hpending : t.pending + (if r.counts then 1 else 0) = s.pending + if r'.counts then 1 else 0)
    (hr' : r' ≠ .queued ∧ ∀ owed, r' ≠ .awaiting owed ∧ r' ≠ .flushed owed) :
    Receipt (t.put i r') := by
  refine h.put hi hr hroutines hwriter hwritten ?_ ?_ (fun hq => absurd hq hr'.1)
    (fun owed => (hr'.2 owed).1) fun owed hq => absurd hq (hr'.2 owed).2
  · rw [hqueue, hpending]
  · rw [hqueue]
    exact List.Subset.refl _

theorem Receipt.move {timeout : Bool} {r : Routine Req}
    (hi : s.routines[i]? = some r) : Receipt (s.move i timeout r) := by
  cases r with
  | checking req | peeking | closing | disconnecting =>
    dsimp only [Conn.move]
    split_ifs <;> exact h.put_plain hi (by simp) rfl rfl rfl rfl rfl (by simp)
  | counting req | undoing =>
    refine h.put_plain hi (by simp) rfl rfl rfl rfl ?_ (by simp)
    simp [Routine.counts]
  | sending req =>
    dsimp only [Conn.move]
    split_ifs
    · refine h.put hi (by simp) rfl rfl rfl ?_ ?_ ?_ (by simp) (by simp)
      · simp only [Routine.counts, length_append, length_singleton]
        push_cast
        omega
      · rw [map_append]
        exact subset_append_left _ _
      · intro _
        simp
    · exact h.put_plain hi (by simp) rfl rfl rfl rfl rfl (by simp)
  | activating | ending | calling =>
    exact h.put_plain hi (by simp) rfl rfl rfl rfl rfl (by simp)
  | flushing =>
    dsimp only [Conn.move]
    split_ifs
    · exact h
    · exact h.put_plain hi (by simp) rfl rfl rfl rfl rfl (by simp)
  | awaiting owed =>
    dsimp only [Conn.move]
    split_ifs with hp
    · exact h.put_plain hi (by simp) rfl rfl rfl rfl rfl (by simp)
    · exact h
    · -- the receipt
      refine h.put hi (by simp) rfl rfl rfl rfl (List.Subset.refl _) (by simp) (by simp) ?_
      intro owed' heq j hj
      obtain rfl : owed = owed' := by injection heq
      exact h.written_of_pending (Int.not_lt.mp hp) (h.owed i owed hi j hj)
  | queued | refused | flushed owed | expired | returned => exact h

theorem Receipt.call (op : Op Req) : Receipt { s with routines := s.routines ++ [s.first op] } where
  counted := by
    have hfirst : (s.first op).counts = false := by cases op <;> rfl
    show s.pending = (((s.routines ++ [s.first op]).countP Routine.counts + s.queue.length +
      s.writer.busy : ℕ) : Int)
    rw [countP_append, countP_singleton, hfirst]
    exact h.counted
  placed i hi := by
    rcases getElem?_concat_cases hi with ⟨-, hq⟩ | hold
    · cases op <;> cases hq
    · exact h.placed i hold
  owed j owed hj i hi := by
    rcases getElem?_concat_cases hj with ⟨-, hq⟩ | hold
    · cases op with
      | awaitFlush =>
        obtain rfl : owed = s.accepted := by injection hq
        exact getElem?_concat _ (mem_accepted.mp hi)
      | _ => cases hq
    · exact getElem?_concat _ (h.owed j owed hold i hi)
  paid j owed hj := by
    rcases getElem?_concat_cases hj with ⟨-, hq⟩ | hold
    · cases op <;> cases hq
    · exact h.paid j owed hold

end

theorem Conn.Holds.rest (h : s.Holds i) (hw : ∀ req, s.writer ≠ .writing i req) :
    i ∈ s.queue.map Prod.fst ∨ i ∈ s.written := by
  rcases h with hq | ⟨req, hwriting⟩ | hwritten
  · exact .inl hq
  · exact absurd hwriting (hw req)
  · exact .inr hwritten

/-- The write loop goes on: the counter follows, and no request gets lost. -/
theorem Receipt.turn (h : Receipt s) (hroutines : t.routines = s.routines)
    (hcounted : t.pending + s.queue.length + s.writer.busy =
      s.pending + t.queue.length + t.writer.busy)
    (hholds : ∀ i, s.Holds i → t.Holds i) (hwritten : s.written ⊆ t.written) : Receipt t where
  counted := by
    have hold := h.counted
    rw [hroutines]
    omega
  placed i hi := hholds i (h.placed i (hroutines ▸ hi))
  owed j owed hj i hi := by
    rw [hroutines] at hj ⊢
    exact h.owed j owed hj i hi
  paid j owed hj i hi := by
    rw [hroutines] at hj
    exact hwritten (h.paid j owed hj i hi)

theorem Receipt.writeLoop (h : Receipt s) {e : Event Req} (he : WritesSucceed s e) :
    Receipt (s.writeLoop e) := by
  cases e with
  | call op | advance i timeout => exact h
  | start =>
    dsimp only [Conn.writeLoop]
    split
    · rename_i hw
      refine h.turn rfl ?_ (fun i hi => ?_) (List.Subset.refl _)
      · rw [hw]
        rfl
      · exact (hi.rest (by simp [hw])).imp_right .inr
    · exact h
  | take =>
    dsimp only [Conn.writeLoop]
    split
    · rename_i id req rest hw hqueue
      refine h.turn rfl ?_ (fun i hi => ?_) (List.Subset.refl _)
      · rw [hw, hqueue]
        simp only [Writer.busy, length_cons]
        push_cast
        omega
      · rcases hi.rest (by simp [hw]) with hq | hwritten
        · rw [hqueue, map_cons, mem_cons] at hq
          rcases hq with rfl | hq
          · exact .inr (.inl ⟨req, rfl⟩)
          · exact .inl hq
        · exact .inr (.inr hwritten)
    · exact h
  | write ok =>
    dsimp only [Conn.writeLoop]
    split
    · rename_i id req hw
      rw [if_pos (he (hw ▸ rfl))]
      refine h.turn rfl ?_ (fun i hi => ?_) (subset_cons_self _ _)
      · rw [hw]
        rfl
      · rcases hi with hq | ⟨req', hwriting⟩ | hwritten
        · exact .inl hq
        · rw [hw] at hwriting
          injection hwriting with hid
          exact .inr (.inr (hid ▸ mem_cons_self))
        · exact .inr (.inr (mem_cons_of_mem _ hwritten))
    · exact h
  | release =>
    dsimp only [Conn.writeLoop]
    split
    · rename_i hw
      refine h.turn rfl ?_ (fun i hi => ?_) (List.Subset.refl _)
      · rw [hw]
        simp only [Writer.busy]
        push_cast
        omega
      · exact (hi.rest (by simp [hw])).imp_right .inr
    · exact h
  | stop =>
    dsimp only [Conn.writeLoop]
    split
    · rename_i hw
      split_ifs
      · exact h
      · refine h.turn rfl ?_ (fun i hi => ?_) (List.Subset.refl _)
        · rw [hw]
          rfl
        · exact (hi.rest (by simp [hw])).imp_right .inr
    · exact h

theorem Receipt.step (h : Receipt s) {e : Event Req} (he : WritesSucceed s e) :
    Receipt (s.step e) := by
  unfold Conn.step
  split_ifs
  · exact h
  · cases e with
    | call op => exact h.call op
    | advance i timeout =>
      dsimp only
      cases hi : s.routines[i]? with
      | none => exact h
      | some r => exact h.move hi
    | start | take | write ok | release | stop => exact h.writeLoop he

end receipt

theorem receipt_new (onClose : Bool) : Receipt (newConn Req onClose) where
  counted := rfl
  placed _ h := by cases h
  owed _ _ h := by cases h
  paid _ _ h := by cases h

/-- **Receipts are truthful while no write fails**: an `AwaitFlush` that has returned without an
error has the word for everything that had been queued before its call. -/
theorem flushed_written (onClose : Bool) (es : List (Event Req))
    (h : Along Conn.step WritesSucceed (newConn Req onClose) es) (j : ℕ) (owed : List ℕ)
    (hj : (run Conn.step (newConn Req onClose) es).routines[j]? = some (.flushed owed)) :
    ∀ i ∈ owed, i ∈ (run Conn.step (newConn Req onClose) es).written := by
  have hreceipt : Receipt (run Conn.step (newConn Req onClose) es) :=
    run_inv (fun s e hs he => hs.step he) (receipt_new onClose) h
  exact hreceipt.paid j owed hj

/-- Two messages are queued, the second while the first is being written, and a goroutine waits for
both. -/
def delivered : List (Event Unit) :=
  [.call (.enqueue ()), .advance 0 false, .advance 0 false, .advance 0 false, .start, .take,
    .call (.enqueue ()), .advance 1 false, .advance 1 false, .advance 1 false, .call .awaitFlush,
    .advance 2 false, .write true, .release, .take, .write true, .advance 2 false, .release,
    .advance 2 false]

theorem flushed_written_delivered :
    Along Conn.step WritesSucceed (newConn Unit true) delivered ∧
    (run Conn.step (newConn Unit true) delivered).routines[2]? = some (.flushed [0, 1]) ∧
    ∀ i ∈ [0, 1], i ∈ (run Conn.step (newConn Unit true) delivered).written := by
  have hsucceed : Along Conn.step WritesSucceed (newConn Unit true) delivered := by decide
  have hflushed : (run Conn.step (newConn Unit true) delivered).routines[2]? =
      some (.flushed [0, 1]) := by decide
  exact ⟨hsucceed, hflushed, flushed_written true delivered hsucceed 2 [0, 1] hflushed⟩

/-- The peer resets the connection while a message is queued. -/
def reset : List (Event Unit) :=
  [.call (.enqueue ()), .advance 0 false, .advance 0 false, .advance 0 false, .call .awaitFlush,
    .start, .take, .write false, .release, .advance 1 false]

theorem flushed_not_written :
    (run Conn.step (newConn Unit true) reset).routines = [.queued, .flushed [0]] ∧
    (run Conn.step (newConn Unit true) reset).written = [] := by
  decide

end MumbleServer.Connection

import Mathlib.Data.List.Basic
import Mathlib.Data.List.Count
import Mathlib.Tactic.Common

/-! # The life of a session

What can be seen of a session, in the order in which it happens: it becomes active, its joining is
announced, somebody closes it and learns whether it had been announced, it is unbound.  `Life` is
the automaton of the orders that are right; `Paired` says what such an order gives those who
announce and those who close. -/

namespace MumbleServer.SessionLife

open Option

/-- What can be seen of a session. -/
inductive Obs where
  | activate
  /-- The callback that announces the session starts. -/
  | announceStart
  | announceEnd
  /-- Somebody closes the session and learns whether it was announced. -/
  | close (announced : Bool)
  | unbind
deriving DecidableEq

inductive Life where
  | syncing
  | active
  /-- Its joining is being announced. -/
  | joining
  | joined
  | closing
  | closed
deriving DecidableEq

def Life.ended : Life → Bool
  | .closing => true
  | .closed => true
  | _ => false

/-- What may come next. -/
def Life.next : Life → Obs → Option Life
  | .syncing, .activate => some .active
  | .active, .announceStart => some .joining
  | .joining, .announceEnd => some .joined
  | .syncing, .close false => some .closing
  | .active, .close false => some .closing
  | .joined, .close true => some .closing
  | .closing, .close false => some .closing
  | .syncing, .unbind => some .closed
  | .active, .unbind => some .closed
  | .joined, .unbind => some .closed
  | .closing, .unbind => some .closed
  | _, _ => none

/-- Where a session is after what was seen. -/
def Life.run (l : Life) : List Obs → Option Life
  | [] => some l
  | o :: tr => (l.next o).bind fun l => l.run tr

theorem Life.run_append (l : Life) (tr tr' : List Obs) :
    l.run (tr ++ tr') = (l.run tr).bind fun l => l.run tr' := by
  induction tr generalizing l with
  | nil => rfl
  | cons o tr ih =>
    rw [List.cons_append, run, run, bind_assoc]
    congr 1
    funext l
    exact ih l

theorem Life.run_cons_eq_some {l l' : Life} {o : Obs} {tr : List Obs} :
    l.run (o :: tr) = some l' ↔ ∃ l₁, l.next o = some l₁ ∧ l₁.run tr = some l' :=
  bind_eq_some_iff

theorem Life.run_append_eq_some {l l' : Life} {tr tr' : List Obs} :
    l.run (tr ++ tr') = some l' ↔ ∃ l₁, l.run tr = some l₁ ∧ l₁.run tr' = some l' := by
  rw [run_append, bind_eq_some_iff]

def Obs.announces : Obs → Bool
  | .announceStart => true
  | .announceEnd => true
  | _ => false

def Obs.closes : Obs → Bool
  | .close _ => true
  | .unbind => true
  | _ => false

/-- What the right order gives. -/
structure Paired (tr : List Obs) : Prop where
  /-- The announcement is made once. -/
  once : tr.count .announceStart ≤ 1
  /-- It is over before the session is closed. -/
  before : ∀ pre o post, tr = pre ++ o :: post → o.announces = true → ∀ x ∈ pre, x.closes = false
  /-- One of those who close the session learns that it was announced, at most. -/
  learned : tr.count (.close true) ≤ 1
  /-- If it was announced to the end and is closed after that, there is one. -/
  exactly : ∀ pre post, tr = pre ++ .announceEnd :: post → (∃ b, .close b ∈ post) →
    tr.count (.close true) = 1
  /-- If it was not, there is none. -/
  never : .announceEnd ∉ tr → .close true ∉ tr

section runs
variable {l l' : Life} {o : Obs} {tr : List Obs}

/-- From the end nothing leads back, and closing leads there. -/
theorem Life.next_ended (h : l.next o = some l') (he : l.ended = true ∨ o.closes = true) :
    l'.ended = true := by
  rcases o with _ | _ | _ | (_ | _) | _ <;> cases l <;> cases h <;>
    first | rfl | simp [ended, Obs.closes] at he

theorem Life.run_ended (h : l.run tr = some l') (he : l.ended = true ∨ ∃ x ∈ tr, x.closes = true) :
    l'.ended = true := by
  induction tr generalizing l with
  | nil =>
    obtain rfl := some.inj h
    exact he.resolve_right (by simp)
  | cons o tr ih =>
    obtain ⟨l₁, hnext, hrun⟩ := run_cons_eq_some.mp h
    refine ih hrun ?_
    rcases he with he | ⟨x, hx, hc⟩
    · exact .inl (next_ended hnext (.inl he))
    · rcases List.mem_cons.mp hx with rfl | hx
      · exact .inl (next_ended hnext (.inr hc))
      · exact .inr ⟨x, hx, hc⟩

theorem Life.next_announces (h : l.next o = some l') (ho : o.announces = true) :
    l.ended = false := by
  rcases o with _ | _ | _ | (_ | _) | _ <;> cases l <;> cases h <;> first | rfl | cases ho

/-- How many announcements may still come. -/
def Life.announcements : Life → ℕ
  | .syncing => 1
  | .active => 1
  | _ => 0

theorem Life.count_le {x : Obs} {f : Life → ℕ} (hstep : ∀ l o l₁, l.next o = some l₁ →
    (if o = x then 1 else 0) + f l₁ ≤ f l) (h : l.run tr = some l') : tr.count x ≤ f l := by
  induction tr generalizing l with
  | nil => exact Nat.zero_le _
  | cons o tr ih =>
    obtain ⟨l₁, hnext, hrun⟩ := run_cons_eq_some.mp h
    have hrest := ih hrun
    have hone := hstep l o l₁ hnext
    rw [List.count_cons, beq_eq_decide]
    simp only [decide_eq_true_eq]
    omega

theorem Life.count_announceStart (h : l.run tr = some l') :
    tr.count .announceStart ≤ l.announcements := by
  refine count_le (fun l o l₁ hnext => ?_) h
  rcases o with _ | _ | _ | (_ | _) | _ <;> cases l <;> cases hnext <;> decide

/-- How many may still learn that the session was announced. -/
def Life.leavers : Life → ℕ
  | .closing => 0
  | .closed => 0
  | _ => 1

theorem Life.count_learned (h : l.run tr = some l') : tr.count (.close true) ≤ l.leavers := by
  refine count_le (fun l o l₁ hnext => ?_) h
  rcases o with _ | _ | _ | (_ | _) | _ <;> cases l <;> cases hnext <;> decide

open Life

/-- Who closes a session that has joined first learns it. -/
theorem Life.learned_of_joined (h : joined.run tr = some l') {b : Bool} (hb : .close b ∈ tr) :
    .close true ∈ tr := by
  cases tr with
  | nil => cases hb
  | cons o tr =>
    obtain ⟨l₁, hnext, hrun⟩ := run_cons_eq_some.mp h
    rcases o with _ | _ | _ | (_ | _) | _
    case close.true => exact List.mem_cons_self ..
    case unbind =>
        -- nothing follows
        obtain rfl := some.inj hnext
        cases tr with
        | nil => simp at hb
        | cons o tr =>
          obtain ⟨_, hnone, -⟩ := run_cons_eq_some.mp hrun
          cases hnone
    all_goals cases hnext

/-- Without an announcement to the end the session has not joined, and nobody learns that it has. -/
theorem Life.not_joined (h : l.run tr = some l') (hl : l ≠ .joined) (hend : .announceEnd ∉ tr) :
    l' ≠ .joined ∧ .close true ∉ tr := by
  induction tr generalizing l with
  | nil =>
    obtain rfl := some.inj h
    exact ⟨hl, List.not_mem_nil⟩
  | cons o tr ih =>
    obtain ⟨l₁, hnext, hrun⟩ := run_cons_eq_some.mp h
    rw [List.mem_cons, not_or] at hend
    have hstep : l₁ ≠ .joined ∧ o ≠ .close true := by
      rcases o with _ | _ | _ | (_ | _) | _ <;> cases l <;> cases hnext <;> simp_all
    obtain ⟨hl', hrest⟩ := ih hrun hstep.1 hend.2
    exact ⟨hl', by simp [hstep.2.symm, hrest]⟩

/-- **The automaton pairs joining and leaving.** -/
theorem paired_of_run (h : syncing.run tr = some l) : Paired tr where
  once := count_announceStart h
  before := by
    rintro pre o post rfl ho x hx
    obtain ⟨l₁, hpre, hrest⟩ := run_append_eq_some.mp h
    obtain ⟨l₂, hnext, -⟩ := run_cons_eq_some.mp hrest
    by_contra hc
    have hended := run_ended hpre (.inr ⟨x, hx, by simpa using hc⟩)
    rw [next_announces hnext ho] at hended
    cases hended
  learned := count_learned h
  exactly := by
    rintro pre post rfl ⟨b, hb⟩
    obtain ⟨l₁, hpre, hrest⟩ := run_append_eq_some.mp h
    obtain ⟨l₂, hnext, hpost⟩ := run_cons_eq_some.mp hrest
    have hjoined : l₂ = .joined := by
      cases l₁ <;> cases hnext
      rfl
    subst hjoined
    have hmem := learned_of_joined hpost hb
    have hpos : 0 < (pre ++ Obs.announceEnd :: post).count (.close true) :=
      List.count_pos_iff.mpr (by simp [hmem])
    exact Nat.le_antisymm (count_learned h) hpos
  never hend := (not_joined h (by simp) hend).2

end runs

end MumbleServer.SessionLife

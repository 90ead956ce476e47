import Mathlib.Data.List.Basic
import Mathlib.Tactic.Common

/-! # The last decision of a list

Rules are consulted in order and a later rule overrides an earlier one.  `f x` is the decision
of the rule `x`, if it makes one; `lastDecision f d l` is the decision of the last rule of `l`
that makes one, and `d` if none does. -/

namespace MumbleServer

variable {α β : Type}

/-- The decision of the last element that makes one, else `d`. -/
def lastDecision (f : α → Option β) (d : β) (l : List α) : β := (l.reverse.findSome? f).getD d

section
variable (f : α → Option β) (d : β)
include f d

theorem lastDecision_append (l m : List α) :
    lastDecision f d (l ++ m) = lastDecision f (lastDecision f d l) m := by
  unfold lastDecision
  rw [List.reverse_append, List.findSome?_append]
  cases m.reverse.findSome? f <;> rfl

theorem lastDecision_singleton (x : α) : lastDecision f d [x] = (f x).getD d := by
  unfold lastDecision
  cases h : f x <;> simp [h]

theorem lastDecision_cons (x : α) (l : List α) :
    lastDecision f d (x :: l) = lastDecision f ((f x).getD d) l := by
  rw [← List.singleton_append, lastDecision_append, lastDecision_singleton]

end

/-- A loop over the rules computes the last decision of those that count, if every round lets a
counting rule override. -/
theorem foldl_eq_lastDecision {σ : Type} (view : σ → β) {f : α → Option β} {counts : α → Bool}
    {step : σ → α → σ} {l : List α}
    (hstep : ∀ s, ∀ x ∈ l, view (step s x) = if counts x then (f x).getD (view s) else view s)
    (s : σ) : view (l.foldl step s) = lastDecision f (view s) (l.filter counts) := by
  induction l generalizing s with
  | nil => rfl
  | cons x l ih =>
    rw [List.foldl_cons, ih fun s y hy => hstep s y (List.mem_cons_of_mem _ hy),
      hstep s x List.mem_cons_self]
    cases hx : counts x with
    | true => rw [List.filter_cons_of_pos hx, lastDecision_cons, if_pos rfl]
    | false => rw [List.filter_cons_of_neg (by simp [hx]), if_neg (by simp)]

end MumbleServer

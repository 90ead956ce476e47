import Mathlib.Data.List.Nodup
import Mathlib.Data.List.Perm.Subperm
import Mathlib.Logic.Relation
import Mathlib.Tactic.Common

/-! # Breadth-first search

A search with a queue and a set of vertices that were seen; a vertex is queued when it is seen for
the first time.  Every round takes one vertex from the queue, so the search ends after as many
rounds as there are vertices (`search_inv`), and what it has seen is what can be reached
(`Inv.mem_iff`). -/

namespace MumbleServer.BreadthFirst

open List

variable {α : Type*} [DecidableEq α] (adj : α → List α)

/-- A vertex that is new is queued; the state is the queue with the vertices seen. -/
def visit (p : List α × List α) (y : α) : List α × List α :=
  if y ∈ p.2 then p else (p.1 ++ [y], p.2 ++ [y])

/-- The search, with the number of rounds that are left; `none` if they run out. -/
def search : ℕ → List α → List α → Option (List α)
  | _, [], seen => some seen
  | 0, _ :: _, _ => none
  | fuel + 1, x :: queue, seen =>
    let p := (adj x).foldl visit (queue, seen)
    search fuel p.1 p.2

def Reach : α → α → Prop := Relation.ReflTransGen fun a b => b ∈ adj a

/-- The neighbours of a vertex that were not seen are queued, once each. -/
theorem foldl_visit (ys queue seen : List α) :
    ∃ new, ys.foldl visit (queue, seen) = (queue ++ new, seen ++ new) ∧ (∀ y ∈ new, y ∈ ys) ∧
      (∀ y ∈ ys, y ∈ seen ++ new) ∧ (seen.Nodup → (seen ++ new).Nodup) := by
  induction ys generalizing queue seen with
  | nil => exact ⟨[], by simp, by simp, by simp, by simp⟩
  | cons y ys ih =>
    rw [foldl_cons, visit]
    split_ifs with hy
    · obtain ⟨new, heq, hsub, hall, hnodup⟩ := ih queue seen
      refine ⟨new, heq, fun z hz => mem_cons_of_mem _ (hsub z hz), fun z hz => ?_, hnodup⟩
      rcases mem_cons.mp hz with rfl | hz
      · exact mem_append_left _ hy
      · exact hall z hz
    · obtain ⟨new, heq, hsub, hall, hnodup⟩ := ih (queue ++ [y]) (seen ++ [y])
      simp only [append_assoc, singleton_append] at heq hall hnodup
      refine ⟨y :: new, heq, fun z hz => ?_, fun z hz => ?_, fun hseen => hnodup ?_⟩
      · rcases mem_cons.mp hz with rfl | hz
        · exact mem_cons_self
        · exact mem_cons_of_mem _ (hsub z hz)
      · rcases mem_cons.mp hz with rfl | hz
        · simp
        · exact hall z hz
      · exact nodup_append.mpr ⟨hseen, by simp, fun a ha b hb hab =>
          hy (mem_singleton.mp hb ▸ hab ▸ ha)⟩

/-- What was seen can be reached, and a vertex that is not waiting has its neighbours seen. -/
structure Inv (x : α) (queue seen : List α) : Prop where
  root : x ∈ seen
  nodup : seen.Nodup
  reach : ∀ y ∈ seen, Reach adj x y
  closed : ∀ y ∈ seen, y ∈ queue ∨ ∀ z ∈ adj y, z ∈ seen
  queued : ∀ y ∈ queue, y ∈ seen

variable {adj} {x : α} {vertices : List α}

omit [DecidableEq α] in
theorem Inv.start (x : α) : Inv adj x [x] [x] where
  root := mem_singleton_self x
  nodup := nodup_singleton x
  reach _ hy := mem_singleton.mp hy ▸ .refl
  closed _ hy := .inl hy
  queued _ hy := hy

omit [DecidableEq α] in
theorem Inv.round {y : α} {queue seen : List α} (h : Inv adj x (y :: queue) seen) {new : List α}
    (hsub : ∀ z ∈ new, z ∈ adj y) (hall : ∀ z ∈ adj y, z ∈ seen ++ new)
    (hnodup : seen.Nodup → (seen ++ new).Nodup) : Inv adj x (queue ++ new) (seen ++ new) where
  root := mem_append_left _ h.root
  nodup := hnodup h.nodup
  reach z hz := by
    rcases mem_append.mp hz with hz | hz
    · exact h.reach z hz
    · exact (h.reach y (h.queued y mem_cons_self)).tail (hsub z hz)
  closed z hz := by
    rcases mem_append.mp hz with hz | hz
    · rcases h.closed z hz with hq | hadj
      · rcases mem_cons.mp hq with rfl | hq
        · exact .inr hall
        · exact .inl (mem_append_left _ hq)
      · exact .inr fun w hw => mem_append_left _ (hadj w hw)
    · exact .inl (mem_append_right _ hz)
  queued z hz := by
    rcases mem_append.mp hz with hz | hz
    · exact mem_append_left _ (h.queued z (mem_cons_of_mem _ hz))
    · exact mem_append_right _ hz

section
variable (hadj : ∀ y, ∀ z ∈ adj y, z ∈ vertices)
include hadj

/-- With enough rounds the queue runs empty. -/
theorem Inv.search {fuel : ℕ} {queue seen : List α}
    (h : Inv adj x queue seen) (hseen : ∀ y ∈ seen, y ∈ vertices)
    (hfuel : queue.length + vertices.length ≤ fuel + seen.length) :
    ∃ found, search adj fuel queue seen = some found ∧ Inv adj x [] found := by
  have hlen : ∀ {l : List α}, l.Nodup → (∀ y ∈ l, y ∈ vertices) → l.length ≤ vertices.length :=
    fun hl hsub => (hl.subperm hsub).length_le
  induction fuel generalizing queue seen with
  | zero =>
    have hempty : queue = [] := by
      have := hlen h.nodup hseen
      exact length_eq_zero_iff.mp (by omega)
    subst hempty
    exact ⟨seen, rfl, h⟩
  | succ fuel ih =>
    cases queue with
    | nil => exact ⟨seen, rfl, h⟩
    | cons y queue =>
      obtain ⟨new, heq, hsub, hall, hnodup⟩ := foldl_visit (adj y) queue seen
      unfold BreadthFirst.search
      rw [heq]
      refine ih (h.round hsub hall hnodup) (fun z hz => ?_) ?_
      · rcases mem_append.mp hz with hz | hz
        · exact hseen z hz
        · exact hadj y z (hsub z hz)
      · simp only [length_cons, length_append] at hfuel ⊢
        omega

/-- A round for every vertex is enough. -/
theorem search_inv (hx : x ∈ vertices) :
    ∃ found, search adj vertices.length [x] [x] = some found ∧ Inv adj x [] found := by
  refine (Inv.start x).search hadj (fun y hy => mem_singleton.mp hy ▸ hx) ?_
  exact Nat.le_of_eq (Nat.add_comm _ _)

omit [DecidableEq α] hadj in
theorem Inv.mem_iff {found : List α} (h : Inv adj x [] found) {y : α} :
    y ∈ found ↔ Reach adj x y := by
  refine ⟨h.reach y, fun hreach => ?_⟩
  induction hreach with
  | refl => exact h.root
  | tail _ hstep ih =>
    rcases h.closed _ ih with hq | hclosed
    · cases hq
    · exact hclosed _ hstep

end

end MumbleServer.BreadthFirst

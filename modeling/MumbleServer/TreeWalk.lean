import Mathlib.Data.List.Forall2
import Mathlib.Data.List.Nodup
import Mathlib.Logic.Relation
import Mathlib.Tactic.Common

/-! # Walks through trees given by children

`preorder kids fuel a` lists `a` and then, child by child, what the walks from the children of `a`
list, which is what can be reached over children (`mem_preorder`).  Such a recursion over pointers
need not end, so it has fuel and gives `none` when the fuel is spent.  If the children form trees
(`Arbor`), fuel for the depth that is left is enough (`Arbor.exists_preorder`). -/

namespace MumbleServer.TreeWalk

open List

variable {α β : Type*}

section walk
variable (kids : α → List α)

/-- The walk from `a`: `a` itself, then the walks from its children. -/
def preorder : ℕ → α → Option (List α)
  | 0, _ => none
  | fuel + 1, a => ((kids a).mapM (preorder fuel)).map fun below => a :: below.flatten

/-- `b` can be reached from `a` over children. -/
def Below : α → α → Prop := Relation.ReflTransGen fun a b => b ∈ kids a

/-- The children form trees: with depths that grow by one from parent to child and are bounded. -/
structure Arbor (node : α → Prop) (depth : α → ℕ) (bound : ℕ) : Prop where
  closed : ∀ a, node a → ∀ b ∈ kids a, node b
  nodup : ∀ a, node a → (kids a).Nodup
  unique : ∀ a a' b, node a → node a' → b ∈ kids a → b ∈ kids a' → a = a'
  deeper : ∀ a, node a → ∀ b ∈ kids a, depth b = depth a + 1
  bounded : ∀ a, node a → depth a ≤ bound

end walk

theorem mapM_eq_some_iff {f : α → Option β} {l : List α} {ys : List β} :
    l.mapM f = some ys ↔ List.Forall₂ (fun a y => f a = some y) l ys := by
  induction l generalizing ys with
  | nil => simp [eq_comm]
  | cons a l ih =>
    rw [mapM_cons, List.forall₂_cons_left_iff]
    simp only [Option.bind_eq_bind, Option.bind_eq_some_iff, Option.pure_def, Option.some.injEq]
    constructor
    · rintro ⟨y, hy, ys', hys, rfl⟩
      exact ⟨y, ys', hy, ih.mp hys, rfl⟩
    · rintro ⟨y, ys', hy, hys, rfl⟩
      exact ⟨y, hy, ys', ih.mpr hys, rfl⟩

section walk
variable {kids : α → List α} {fuel : ℕ} {a : α} {out : List α}

theorem preorder_succ_eq_some_iff :
    preorder kids (fuel + 1) a = some out ↔
      ∃ outs, List.Forall₂ (fun b o => preorder kids fuel b = some o) (kids a) outs ∧
        out = a :: outs.flatten := by
  rw [preorder, Option.map_eq_some_iff]
  simp only [mapM_eq_some_iff]
  exact exists_congr fun outs => and_congr_right fun _ => eq_comm

section
variable {R : α → List β → Prop} {l : List α} {outs : List (List β)} (h : List.Forall₂ R l outs)
include h

theorem mem_flatten_of_forall₂ {x : β} (hx : x ∈ outs.flatten) : ∃ b ∈ l, ∃ o, R b o ∧ x ∈ o := by
  obtain ⟨hlen, hget⟩ := List.forall₂_iff_get.mp h
  obtain ⟨o, ho, hx⟩ := mem_flatten.mp hx
  obtain ⟨i, hi, rfl⟩ := getElem_of_mem ho
  exact ⟨_, getElem_mem (hlen ▸ hi), _, hget i (hlen ▸ hi) hi, hx⟩

theorem exists_mem_of_forall₂ {b : α} (hb : b ∈ l) : ∃ o ∈ outs, R b o := by
  obtain ⟨hlen, hget⟩ := List.forall₂_iff_get.mp h
  obtain ⟨i, hi, rfl⟩ := getElem_of_mem hb
  exact ⟨_, getElem_mem (hlen ▸ hi), hget i hi (hlen ▸ hi)⟩

end

theorem mem_preorder (h : preorder kids fuel a = some out) {b : α} : b ∈ out ↔ Below kids a b := by
  induction fuel generalizing a out b with
  | zero => cases h
  | succ fuel ih =>
    obtain ⟨outs, houts, rfl⟩ := preorder_succ_eq_some_iff.mp h
    rw [mem_cons]
    constructor
    · rintro (rfl | hb)
      · exact .refl
      · obtain ⟨c, hc, o, ho, hbo⟩ := mem_flatten_of_forall₂ houts hb
        exact .head hc ((ih ho).mp hbo)
    · intro hab
      rcases Relation.ReflTransGen.cases_head hab with rfl | ⟨c, hc, hcb⟩
      · exact .inl rfl
      · obtain ⟨o, ho, hco⟩ := exists_mem_of_forall₂ houts hc
        exact .inr (mem_flatten.mpr ⟨o, ho, (ih hco).mpr hcb⟩)

end walk

/-! ### Trees -/

namespace Arbor
variable {kids : α → List α} {node : α → Prop} {depth : α → ℕ} {bound : ℕ}
variable (h : Arbor kids node depth bound)
include h

theorem exists_preorder {a : α} (ha : node a) (fuel : ℕ) (hfuel : bound < fuel + depth a) :
    ∃ out, preorder kids fuel a = some out := by
  induction fuel generalizing a with
  | zero => exact absurd (h.bounded a ha) (by omega)
  | succ fuel ih =>
    suffices hall : ∀ l, (∀ b ∈ l, b ∈ kids a) →
        ∃ outs, List.Forall₂ (fun b o => preorder kids fuel b = some o) l outs by
      obtain ⟨outs, houts⟩ := hall (kids a) fun _ => id
      exact ⟨_, preorder_succ_eq_some_iff.mpr ⟨outs, houts, rfl⟩⟩
    intro l hl
    induction l with
    | nil => exact ⟨[], .nil⟩
    | cons b l ihl =>
      rw [forall_mem_cons] at hl
      obtain ⟨outs, houts⟩ := ihl hl.2
      have hdeep := h.deeper a ha b hl.1
      obtain ⟨o, ho⟩ := ih (h.closed a ha b hl.1) (by omega)
      exact ⟨o :: outs, .cons ho houts⟩

end Arbor

end MumbleServer.TreeWalk

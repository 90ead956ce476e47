import Mathlib.Data.List.Nodup
import Mathlib.Tactic.Common

/-! # Finite maps as association lists

A map is a list of pairs read with `List.lookup`, so that the first pair of a key counts.  `put`
and `delete` are the two writes.  Records that have keys of their own are found with `List.find?`. -/

namespace MumbleServer.AssocList

open List

variable {K V : Type*} [DecidableEq K]

def put (l : List (K × V)) (k : K) (v : V) : List (K × V) :=
  (k, v) :: l.filter (fun p => decide (p.1 ≠ k))

def delete (l : List (K × V)) (k : K) : List (K × V) :=
  l.filter (fun p => decide (p.1 ≠ k))

variable {l : List (K × V)} {k k' : K} {v v' : V}

theorem mem_of_lookup (h : l.lookup k = some v) : (k, v) ∈ l := by
  obtain ⟨l₁, l₂, rfl, -⟩ := lookup_eq_some_iff.mp h
  simp

theorem lookup_filter {q : K × V → Bool} (h : l.lookup k = some v) (hq : q (k, v) = true) :
    (l.filter q).lookup k = some v := by
  obtain ⟨l₁, l₂, rfl, hl⟩ := lookup_eq_some_iff.mp h
  rw [filter_append, filter_cons_of_pos hq]
  exact lookup_eq_some_iff.mpr ⟨_, _, rfl, fun p hp => hl p (mem_filter.mp hp).1⟩

theorem lookup_of_mem (hn : (l.map Prod.fst).Nodup) (h : (k, v) ∈ l) : l.lookup k = some v := by
  induction l with
  | nil => cases h
  | cons p l ih =>
    rw [map_cons, nodup_cons] at hn
    rcases mem_cons.mp h with rfl | h
    · exact lookup_cons_self
    · have hne : k ≠ p.1 := fun heq => hn.1 (heq ▸ mem_map_of_mem h)
      rw [lookup_cons, beq_eq_false_iff_ne.mpr hne]
      exact ih hn.2 h

theorem mem_put {p : K × V} (h : p ∈ put l k v) : p = (k, v) ∨ p ∈ l := by
  rcases mem_cons.mp h with h | h
  · exact .inl h
  · exact .inr (mem_filter.mp h).1

theorem mem_delete {p : K × V} (h : p ∈ delete l k) : p ∈ l ∧ p.1 ≠ k := by
  obtain ⟨hp, hk⟩ := mem_filter.mp h
  exact ⟨hp, by simpa using hk⟩

theorem lookup_delete (l : List (K × V)) (k k' : K) :
    (delete l k).lookup k' = if k' = k then none else l.lookup k' := by
  split_ifs with heq
  · rw [lookup_eq_none_iff]
    intro p hp
    rw [heq, bne_iff_ne]
    exact fun h => (mem_delete hp).2 h.symm
  · cases hl : l.lookup k' with
    | some v => exact lookup_filter hl (by simpa using heq)
    | none =>
      rw [lookup_eq_none_iff] at hl ⊢
      exact fun p hp => hl p (mem_delete hp).1

theorem lookup_put (l : List (K × V)) (k : K) (v : V) (k' : K) :
    (put l k v).lookup k' = if k' = k then some v else l.lookup k' := by
  rw [put, lookup_cons]
  split_ifs with heq
  · simp [heq]
  · rw [beq_eq_false_iff_ne.mpr heq]
    exact (lookup_delete l k k').trans (if_neg heq)

theorem find?_of_mem {f : V → K} {l : List V} (h : (l.map f).Nodup) (hv : v ∈ l) :
    l.find? (fun x => decide (f x = f v)) = some v := by
  cases hf : l.find? (fun x => decide (f x = f v)) with
  | none => exact absurd (find?_eq_none.mp hf v hv) (by simp)
  | some x =>
    have hx : f x = f v := by simpa using find?_some hf
    rw [inj_on_of_nodup_map h (mem_of_find?_eq_some hf) hv hx]

end MumbleServer.AssocList

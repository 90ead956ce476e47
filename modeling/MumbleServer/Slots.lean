import Mathlib.Data.List.Basic
import Mathlib.Tactic.Common

/-! # Lists whose entries are changed in place

A list of goroutines or objects known by their positions: an entry is replaced (`List.set`) or
appended.  The lemmas say where an entry of the new list comes from, and which entries stay. -/

namespace MumbleServer

open List

variable {α : Type*} {l : List α} {i j : ℕ} {a b : α}

theorem getElem?_set_cases (h : (l.set i a)[j]? = some b) :
    (j = i ∧ b = a) ∨ (j ≠ i ∧ l[j]? = some b) := by
  rw [getElem?_set] at h
  split_ifs at h with hij
  · exact .inl ⟨hij.symm, (Option.some.inj h).symm⟩
  · exact .inr ⟨Ne.symm hij, h⟩

theorem mem_set_cases (h : b ∈ l.set i a) : b = a ∨ b ∈ l := (mem_or_eq_of_mem_set h).symm

theorem mem_set_self (h : l[i]? = some b) (a : α) : a ∈ l.set i a :=
  List.mem_iff_getElem?.mpr ⟨i, List.getElem?_set_self (List.getElem?_eq_some_iff.mp h).1⟩

theorem mem_set_of_ne (h : l[i]? = some b) {c : α} (hc : c ∈ l) (hne : c ≠ b) (a : α) :
    c ∈ l.set i a := by
  obtain ⟨j, hj⟩ := mem_iff_getElem?.mp hc
  have hij : i ≠ j := by
    rintro rfl
    rw [h] at hj
    exact hne (Option.some.inj hj).symm
  exact mem_iff_getElem?.mpr ⟨j, by rw [getElem?_set_ne hij, hj]⟩

theorem getElem?_concat_cases (h : (l ++ [a])[j]? = some b) :
    (j = l.length ∧ b = a) ∨ l[j]? = some b := by
  rcases Nat.lt_trichotomy j l.length with hj | rfl | hj
  · exact .inr ((getElem?_append_left hj).symm.trans h)
  · rw [getElem?_concat_length] at h
    exact .inl ⟨rfl, (Option.some.inj h).symm⟩
  · rw [getElem?_eq_none (by rw [length_append, length_singleton]; omega)] at h
    cases h

theorem getElem?_concat (a : α) (h : l[j]? = some b) : (l ++ [a])[j]? = some b :=
  (List.getElem?_append_left (List.getElem?_eq_some_iff.mp h).1).trans h

theorem countP_set_add (p : α → Bool) (h : l[i]? = some b) (a : α) :
    (l.set i a).countP p + (if p b then 1 else 0) = l.countP p + if p a then 1 else 0 := by
  obtain ⟨hi, rfl⟩ := List.getElem?_eq_some_iff.mp h
  have hle := List.boole_getElem_le_countP (p := p) hi
  rw [List.countP_set hi]
  omega

end MumbleServer

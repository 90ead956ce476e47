import Mathlib.Data.List.Basic
import Mathlib.Tactic.Common

/-! # Properties along runs of a state machine

A machine is a total step function `step : S → I → S`; a run is the list of its inputs.
`Along step ok s is` says that `ok` holds of every state of the run together with the input
taken there.  The rules below reduce a statement about whole runs to one about single steps
under an invariant (`Along.of_inv`, `along_iff_of_inv`, `run_inv`). -/

namespace MumbleServer

variable {S I : Type*} (step : S → I → S)

/-- The state after the inputs `is`. -/
def run (s : S) (is : List I) : S := is.foldl step s

@[simp] theorem run_nil (s : S) : run step s [] = s := rfl

@[simp] theorem run_cons (s : S) (i : I) (is : List I) :
    run step s (i :: is) = run step (step s i) is := rfl

theorem run_append (s : S) (is js : List I) :
    run step s (is ++ js) = run step (run step s is) js := by
  simp [run, List.foldl_append]

/-- `ok` holds at every step of the run. -/
def Along (ok : S → I → Prop) (s : S) : List I → Prop
  | [] => True
  | i :: is => ok s i ∧ Along ok (step s i) is

/-- Whether a condition holds along a run can be computed. -/
instance Along.decidable (ok : S → I → Prop) [∀ s i, Decidable (ok s i)] :
    ∀ (s : S) (is : List I), Decidable (Along step ok s is)
  | _, [] => isTrue trivial
  | s, i :: is =>
    have := Along.decidable ok (step s i) is
    inferInstanceAs (Decidable (ok s i ∧ Along step ok (step s i) is))

variable {step}

@[simp] theorem along_nil (ok : S → I → Prop) (s : S) : Along step ok s [] := trivial

@[simp] theorem along_cons (ok : S → I → Prop) (s : S) (i : I) (is : List I) :
    Along step ok s (i :: is) ↔ ok s i ∧ Along step ok (step s i) is := Iff.rfl

theorem along_append {ok : S → I → Prop} {s : S} {is js : List I} :
    Along step ok s (is ++ js) ↔ Along step ok s is ∧ Along step ok (run step s is) js := by
  induction is generalizing s with
  | nil => simp
  | cons i is ih => simp [ih, and_assoc]

/-- `Along` read at one position of the run. -/
theorem Along.at {ok : S → I → Prop} {s : S} {pre post : List I} {i : I}
    (h : Along step ok s (pre ++ i :: post)) : ok (run step s pre) i :=
  (along_append.mp h).2.1

theorem Along.of_inv {Inv : S → Prop} {ok prop : S → I → Prop}
    (hstep : ∀ s i, Inv s → ok s i → prop s i ∧ Inv (step s i)) {s : S} (hs : Inv s)
    {is : List I} (h : Along step ok s is) : Along step prop s is := by
  induction is generalizing s with
  | nil => trivial
  | cons i is ih =>
    obtain ⟨hp, hi⟩ := hstep s i hs h.1
    exact ⟨hp, ih hi h.2⟩

theorem run_inv {Inv : S → Prop} {ok : S → I → Prop}
    (hstep : ∀ s i, Inv s → ok s i → Inv (step s i)) {s : S} (hs : Inv s)
    {is : List I} (h : Along step ok s is) : Inv (run step s is) := by
  induction is generalizing s with
  | nil => exact hs
  | cons i is ih => exact ih (hstep s i hs h.1) h.2

/-- In a run whose steps meet `pre`, `prop` holds throughout exactly when `cond` does, if it
does at every single step from an invariant state and `prop` keeps the invariant. -/
theorem along_iff_of_inv (Inv : S → Prop) {pre prop cond : S → I → Prop}
    (hiff : ∀ s i, Inv s → pre s i → (prop s i ↔ cond s i))
    (hstep : ∀ s i, Inv s → pre s i → prop s i → Inv (step s i)) {s : S} (hs : Inv s)
    {is : List I} (h : Along step pre s is) :
    Along step prop s is ↔ Along step cond s is := by
  induction is generalizing s with
  | nil => exact Iff.rfl
  | cons i is ih =>
    simp only [along_cons]
    rw [← hiff s i hs h.1]
    constructor
    · rintro ⟨hp, hr⟩
      exact ⟨hp, (ih (hstep s i hs h.1 hp) h.2).mp hr⟩
    · rintro ⟨hp, hr⟩
      exact ⟨hp, (ih (hstep s i hs h.1 hp) h.2).mpr hr⟩

theorem along_true (s : S) (is : List I) : Along step (fun _ _ => True) s is := by
  induction is generalizing s with
  | nil => trivial
  | cons i is ih => exact ⟨trivial, ih _⟩

theorem Along.and_forall {ok : S → I → Prop} {p : I → Prop} {s : S} {is : List I}
    (h : Along step ok s is) (hp : ∀ i ∈ is, p i) : Along step (fun s i => ok s i ∧ p i) s is := by
  induction is generalizing s with
  | nil => trivial
  | cons i is ih =>
    rw [List.forall_mem_cons] at hp
    exact ⟨⟨h.1, hp.1⟩, ih h.2 hp.2⟩

theorem along_iff_of_inv_true (Inv : S → Prop) {prop cond : S → I → Prop}
    (hiff : ∀ s i, Inv s → (prop s i ↔ cond s i))
    (hstep : ∀ s i, Inv s → prop s i → Inv (step s i)) {s : S} (hs : Inv s) (is : List I) :
    Along step prop s is ↔ Along step cond s is :=
  along_iff_of_inv Inv (fun s i h _ => hiff s i h) (fun s i h _ => hstep s i h) hs (along_true s is)

end MumbleServer

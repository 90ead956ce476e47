import MumbleServer.Reads
import MumbleServer.Runs

/-! # A computation beside others

`Reads.Ran p ws a` says that the accesses of `p` found the worlds `ws`, one after the other, and
that the result is `a`.  `Beside` is a computation that runs beside others: at each turn it makes
its next access, and between two turns the others may do anything to the world.  What it has seen
when it is done is such a list of worlds (`Beside.ran`), so a statement about all interleavings is
one about all lists of worlds. -/

namespace MumbleServer

open List

namespace Reads

variable {W α β : Type}

/-- The accesses found these worlds, and this is the result. -/
inductive Ran : Reads W α → List W → α → Prop
  | done (a : α) : Ran (done a) [] a
  | read {k : W → Reads W α} {w : W} {ws : List W} {a : α} :
      Ran (k w) ws a → Ran (read k) (w :: ws) a

section ran
variable {ws : List W}

theorem ran_pure {a b : α} : Ran (pure a : Reads W α) ws b ↔ ws = [] ∧ a = b := by
  constructor
  · intro h
    cases h with
    | done => exact ⟨rfl, rfl⟩
  · rintro ⟨rfl, rfl⟩
    exact .done a

theorem ran_get {f : W → α} {a : α} : Ran (get f) ws a ↔ ∃ w, ws = [w] ∧ f w = a := by
  constructor
  · intro h
    cases h with
    | @read _ w _ _ h =>
      cases h with
      | done => exact ⟨w, rfl, rfl⟩
  · rintro ⟨w, rfl, rfl⟩
    exact .read (.done _)

theorem ran_bind {p : Reads W α} {f : α → Reads W β} {b : β} :
    Ran (p >>= f) ws b ↔ ∃ us vs a, ws = us ++ vs ∧ Ran p us a ∧ Ran (f a) vs b := by
  show Ran (p.bind f) ws b ↔ _
  induction p generalizing ws with
  | done a =>
    constructor
    · intro h
      exact ⟨[], ws, a, rfl, .done a, h⟩
    · rintro ⟨us, vs, a', rfl, hp, hf⟩
      cases hp with
      | done => exact hf
  | read k ih =>
    constructor
    · intro h
      cases h with
      | @read _ w rest _ h =>
        obtain ⟨us, vs, a, rfl, hp, hf⟩ := (ih w).mp h
        exact ⟨w :: us, vs, a, rfl, .read hp, hf⟩
    · rintro ⟨us, vs, a, rfl, hp, hf⟩
      cases hp with
      | @read _ w us _ hp => exact .read ((ih w).mpr ⟨us, vs, a, rfl, hp, hf⟩)

theorem ran_get_bind {f : W → α} {k : α → Reads W β} {b : β} (h : Ran (get f >>= k) ws b) :
    ∃ w us, ws = w :: us ∧ Ran (k (f w)) us b := by
  have h : Ran (read fun w => k (f w)) ws b := h
  cases h with
  | read h => exact ⟨_, _, rfl, h⟩

theorem ran_ite {c : Prop} [Decidable c] {p q : Reads W α} {a : α} :
    Ran (if c then p else q) ws a ↔ (c ∧ Ran p ws a) ∨ (¬c ∧ Ran q ws a) := by
  split_ifs with hc <;> simp [hc]

end ran

/-- A loop over a list that appends what each round gives. -/
def collect (f : α → Reads W (List β)) : List α → Reads W (List β)
  | [] => pure []
  | a :: rest => do
      let out ← f a
      let outs ← collect f rest
      pure (out ++ outs)

@[simp] theorem on_collect (w : W) (f : α → Reads W (List β)) (as : List α) :
    (collect f as).on w = as.flatMap fun a => (f a).on w := by
  induction as with
  | nil => rfl
  | cons a rest ih => simp only [collect, on_bind, on_pure, ih, flatMap_cons]

theorem Ran.of_mem_collect {f : α → Reads W (List β)} {as : List α} {ws : List W} {out : List β}
    (h : Ran (collect f as) ws out) {b : β} (hb : b ∈ out) :
    ∃ a ∈ as, ∃ us out', us ⊆ ws ∧ Ran (f a) us out' ∧ b ∈ out' := by
  induction as generalizing ws out with
  | nil =>
    obtain ⟨-, rfl⟩ := ran_pure.mp h
    cases hb
  | cons a rest ih =>
    obtain ⟨us, vs, first, rfl, hfirst, h⟩ := ran_bind.mp h
    obtain ⟨vs, vs', others, rfl, hothers, h⟩ := ran_bind.mp h
    obtain ⟨rfl, rfl⟩ := ran_pure.mp h
    rcases mem_append.mp hb with hb | hb
    · exact ⟨a, mem_cons_self, us, first, subset_append_left _ _, hfirst, hb⟩
    · obtain ⟨a', ha', us', out', hsub, hran, hmem⟩ := ih hothers hb
      refine ⟨a', mem_cons_of_mem _ ha', us', out', fun w hw => ?_, hran, hmem⟩
      exact mem_append_right _ (mem_append_left _ (hsub hw))

end Reads

/-- A computation beside others, with the worlds its accesses have found. -/
structure Beside (W α : Type) where
  world : W
  call : Reads W α
  seen : List W

namespace Beside

variable {W α : Type}
variable {p : Reads W α}

/-- What happens next: an access of the computation, or something that others do. -/
inductive Action (W : Type)
  | turn
  | others (f : W → W)

def start (w : W) (p : Reads W α) : Beside W α := ⟨w, p, []⟩

def step (s : Beside W α) : Action W → Beside W α
  | .turn =>
    match s.call with
    | .done _ => s
    | .read k => { s with call := k s.world, seen := s.seen ++ [s.world] }
  | .others f => { s with world := f s.world }

/-- What is left to do continues what has been seen. -/
def Continues (p : Reads W α) (s : Beside W α) : Prop :=
  ∀ us a, s.call.Ran us a → p.Ran (s.seen ++ us) a

theorem Continues.step {s : Beside W α} (h : s.Continues p) (i : Action W) :
    (s.step i).Continues p := by
  cases i with
  | others f => exact h
  | turn =>
    unfold Beside.step
    cases hc : s.call with
    | done a => exact h
    | read k =>
      intro us a hran
      have hnext := h (s.world :: us) a (hc ▸ .read hran)
      rwa [append_cons] at hnext

theorem Continues.run {s : Beside W α} (h : s.Continues p)
    (sched : List (Action W)) : (MumbleServer.run Beside.step s sched).Continues p := by
  induction sched generalizing s with
  | nil => exact h
  | cons i is ih => exact ih (h.step i)

/-- A computation that is done has the result of what it has seen. -/
theorem ran {w : W} {sched : List (Action W)} {a : α}
    (h : (run step (start w p) sched).call = .done a) :
    p.Ran (run step (start w p) sched).seen a := by
  have hstart : (start w p).Continues p := fun _ _ hran => hran
  have hend := hstart.run sched [] a (h ▸ .done a)
  rwa [append_nil] at hend

/-- At every access the world stands in the relation `R` to what was seen before. -/
def Follows (R : W → W → Prop) (s : Beside W α) : Action W → Prop
  | .turn => ∀ w ∈ s.seen, R w s.world
  | .others _ => True

instance (R : W → W → Prop) [∀ w w', Decidable (R w w')] (s : Beside W α) :
    ∀ i : Action W, Decidable (Follows R s i)
  | .turn => inferInstanceAs (Decidable (∀ w ∈ s.seen, R w s.world))
  | .others _ => isTrue trivial

theorem pairwise_of_follows {R : W → W → Prop} {w : W} {sched : List (Action W)}
    (h : Along step (Follows R) (start w p) sched) :
    (run step (start w p) sched).seen.Pairwise R := by
  refine @run_inv _ _ _ (fun s : Beside W α => s.seen.Pairwise R) _ (fun s i hs hok => ?_) _
    List.Pairwise.nil _ h
  cases i with
  | others f => exact hs
  | turn =>
    unfold step
    cases s.call with
    | done a => exact hs
    | read k =>
      refine pairwise_append.mpr ⟨hs, pairwise_singleton _ _, fun x hx y hy => ?_⟩
      obtain rfl := mem_singleton.mp hy
      exact hok x hx

end Beside

end MumbleServer

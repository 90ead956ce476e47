import Mathlib.Tactic.Common

/-! # Computations that read a shared world

A computation that runs beside others sees the shared state one access at a time: between two
of its accesses anything may have changed.  `Reads W α` is such a computation, a tree with one
`read` for each access; `Reads.on w` is the result when the world stays `w` throughout.

`Fallible` adds errors, for `do` blocks. -/

namespace MumbleServer

/-- A computation with its accesses to a world of type `W`. -/
inductive Reads (W α : Type) where
  | done : α → Reads W α
  | read : (W → Reads W α) → Reads W α

namespace Reads

variable {W α β : Type}

def bind (p : Reads W α) (f : α → Reads W β) : Reads W β :=
  match p with
  | done a => f a
  | read k => read fun w => (k w).bind f

instance : Monad (Reads W) where
  pure := done
  bind := bind

def get (f : W → α) : Reads W α := read fun w => done (f w)

/-- The result if the world is `w` at every access. -/
def on (w : W) : Reads W α → α
  | done a => a
  | read k => (k w).on w

/-- The result of a computation that is done. -/
def result : Reads W α → Option α
  | done a => some a
  | read _ => none

theorem eq_done_of_result {p : Reads W α} {a : α} (h : p.result = some a) : p = done a := by
  cases p with
  | done b => rw [Option.some.inj h]
  | read k => cases h

@[simp] theorem on_done (w : W) (a : α) : (done a).on w = a := rfl

@[simp] theorem on_read (w : W) (k : W → Reads W α) : (read k).on w = (k w).on w := rfl

@[simp] theorem on_pure (w : W) (a : α) : (pure a : Reads W α).on w = a := rfl

@[simp] theorem on_get (w : W) (f : W → α) : (get f).on w = f w := rfl

@[simp] theorem on_bind (w : W) (p : Reads W α) (f : α → Reads W β) :
    (p >>= f).on w = (f (p.on w)).on w := by
  show (p.bind f).on w = (f (p.on w)).on w
  induction p with
  | done a => rfl
  | read k ih => exact ih w

end Reads

/-- A computation with accesses that may fail. -/
abbrev Fallible (W ε α : Type) : Type := ExceptT ε (Reads W) α

namespace Fallible

variable {W ε α β : Type}

def ask (f : W → Except ε α) : Fallible W ε α := ExceptT.mk (Reads.get f)

/-- The outcome if the world is `w` at every access. -/
def on (w : W) (p : Fallible W ε α) : Except ε α := Reads.on w (ExceptT.run p)

@[simp] theorem on_ask (w : W) (f : W → Except ε α) : (ask f).on w = f w := rfl

@[simp] theorem on_pure (w : W) (a : α) : (pure a : Fallible W ε α).on w = .ok a := rfl

theorem on_bind (w : W) (p : Fallible W ε α) (f : α → Fallible W ε β) :
    (p >>= f).on w = p.on w >>= fun a => (f a).on w := by
  show Reads.on w (ExceptT.run p >>= ExceptT.bindCont f) = _
  rw [Reads.on_bind]
  show Reads.on w (ExceptT.bindCont f (p.on w)) = _
  cases p.on w with
  | error e => rfl
  | ok a => rfl

theorem on_bind_of_ok {w : W} {p : Fallible W ε α} {a : α} (h : p.on w = .ok a)
    (f : α → Fallible W ε β) : (p >>= f).on w = (f a).on w := by
  rw [on_bind, h]
  rfl

/-- The computation does not fail if the world is `w` at every access. -/
def Succeeds (w : W) (p : Fallible W ε α) : Prop := ∃ a, p.on w = .ok a

theorem succeeds_pure (w : W) (a : α) : (pure a : Fallible W ε α).Succeeds w := ⟨a, rfl⟩

theorem Succeeds.bind {w : W} {p : Fallible W ε α} {f : α → Fallible W ε β} (hp : p.Succeeds w)
    (hf : ∀ a, p.on w = .ok a → (f a).Succeeds w) : (p >>= f).Succeeds w := by
  obtain ⟨a, ha⟩ := hp
  obtain ⟨b, hb⟩ := hf a ha
  exact ⟨b, (on_bind_of_ok ha f).trans hb⟩

theorem Succeeds.ite {w : W} {c : Prop} [Decidable c] {p q : Fallible W ε α}
    (hp : p.Succeeds w) (hq : q.Succeeds w) : (if c then p else q).Succeeds w := by
  split
  · exact hp
  · exact hq

/-- The computation cannot tell two worlds apart. -/
def Agrees (w w' : W) (p : Fallible W ε α) : Prop := p.on w = p.on w'

section agrees
variable {w w' : W}

theorem agrees_pure (a : α) : (pure a : Fallible W ε α).Agrees w w' := rfl

theorem agrees_throw (e : ε) : (throw e : Fallible W ε α).Agrees w w' := rfl

theorem agrees_ask {f : W → Except ε α} (h : f w = f w') : (ask f).Agrees w w' := h

section
variable {p : Fallible W ε α} {f : α → Fallible W ε β} (hp : p.Agrees w w')
include hp

theorem Agrees.bind (hf : ∀ a, (f a).Agrees w w') : (p >>= f).Agrees w w' := by
  have hcont : (fun a => (f a).on w) = fun a => (f a).on w' := funext hf
  unfold Agrees at hp ⊢
  rw [on_bind, on_bind, hp, hcont]

theorem Agrees.bind_of_ok
    (hf : ∀ a, p.on w = .ok a → (f a).Agrees w w') : (p >>= f).Agrees w w' := by
  unfold Agrees at hp ⊢
  rw [on_bind, on_bind, ← hp]
  cases ha : p.on w with
  | error e => rfl
  | ok a => exact hf a ha

end

theorem Agrees.ite {c : Prop} [Decidable c] {p q : Fallible W ε α} (hp : p.Agrees w w')
    (hq : q.Agrees w w') : (if c then p else q).Agrees w w' := by
  split
  · exact hp
  · exact hq

end agrees

end Fallible

end MumbleServer

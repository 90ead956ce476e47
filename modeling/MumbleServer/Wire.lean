import Mathlib.Data.List.Basic
import Mathlib.Order.Nat
import Mathlib.Tactic.Common

/-! # Reading from the wire

The readers of `pkg/mumble/protocol/wire/wire.go`.  A message is a sequence of tagged fields; a Go
reader returns the number of bytes it consumed, here it returns the bytes that are left. -/

namespace MumbleServer.Wire

/-- `ErrBufferTooShort` and `ErrInvalidTag`. -/
inductive WireError
  | bufferTooShort
  | invalidTag
deriving DecidableEq

/-- A reader takes a value from the front of the bytes. -/
abbrev Reader (α : Type) := List UInt8 → Except WireError (α × List UInt8)

/-- The loop of `ReadVarint` at byte `i`, with the bits read so far. -/
def readVarintFrom : ℕ → UInt64 → Reader UInt64
  | _, _, [] => .error .bufferTooShort
  | i, x, c :: b =>
    if 10 ≤ i then .error .invalidTag
    else
      let y := x ||| ((c &&& 0x7F).toUInt64 <<< UInt64.ofNat (7 * i))
      if c < 0x80 then .ok (y, b) else readVarintFrom (i + 1) y b

def readVarint : Reader UInt64 := readVarintFrom 0 0

/-- `ReadTag`: the field number and the wire type. -/
def readTag (b : List UInt8) : Except WireError ((ℕ × ℕ) × List UInt8) := do
  let (v, rest) ← readVarint b
  .ok (((v >>> 3).toNat, (v &&& 7).toNat), rest)

/-- The first `n` bytes. -/
def take (n : ℕ) : Reader (List UInt8) := fun b =>
  if b.length < n then .error .bufferTooShort else .ok (b.take n, b.drop n)

def readLengthDelimited : Reader (List UInt8) := fun b => do
  let (l, rest) ← readVarint b
  take l.toNat rest

/-- `SkipField`: the bytes after a field of the given wire type. -/
def skipField (wireType : ℕ) (b : List UInt8) : Except WireError (List UInt8) :=
  match wireType with
  | 0 => (readVarint b).map Prod.snd
  | 1 => (take 8 b).map Prod.snd
  | 2 => (readLengthDelimited b).map Prod.snd
  | 5 => (take 4 b).map Prod.snd
  | _ => .error .invalidTag

/-! ### Every read consumes a byte -/

/-- What is left of a successful read is shorter than what was there. -/
def Consumes {α : Type} (read : Reader α) : Prop :=
  ∀ b v rest, read b = .ok (v, rest) → rest.length < b.length

theorem bind_ok {ε α β : Type} {x : Except ε α} {f : α → Except ε β} {r : β}
    (h : (x >>= f) = .ok r) : ∃ a, x = .ok a ∧ f a = .ok r := by
  cases x with
  | error e => cases h
  | ok a => exact ⟨a, rfl, h⟩

theorem map_ok {ε α β : Type} {x : Except ε α} {f : α → β} {r : β}
    (h : x.map f = .ok r) : ∃ a, x = .ok a ∧ f a = r := by
  cases x with
  | error e => cases h
  | ok a => exact ⟨a, rfl, Except.ok.inj h⟩

theorem readVarintFrom_consumes (i : ℕ) (x : UInt64) : Consumes (readVarintFrom i x) := by
  intro b
  induction b generalizing i x with
  | nil =>
    intro v rest h
    cases h
  | cons c b ih =>
    intro v rest h
    unfold readVarintFrom at h
    split at h
    · cases h
    · simp only at h
      split at h
      · obtain ⟨-, rfl⟩ := Prod.mk.inj (Except.ok.inj h)
        exact Nat.lt_succ_self _
      · exact (ih _ _ v rest h).trans (Nat.lt_succ_self _)

theorem readVarint_consumes : Consumes readVarint := readVarintFrom_consumes 0 0

variable {b rest : List UInt8}

theorem readTag_length {t : ℕ × ℕ} (h : readTag b = .ok (t, rest)) : rest.length < b.length := by
  obtain ⟨⟨v, r⟩, hv, ⟨⟩⟩ := bind_ok h
  exact readVarint_consumes b v rest hv

theorem take_length {n : ℕ} {b v rest : List UInt8} (h : take n b = .ok (v, rest)) :
    rest.length ≤ b.length := by
  unfold take at h
  split at h
  · cases h
  · obtain ⟨-, rfl⟩ := Prod.mk.inj (Except.ok.inj h)
    rw [List.length_drop]
    omega

theorem readLengthDelimited_consumes : Consumes readLengthDelimited := by
  intro b v rest h
  obtain ⟨⟨l, r⟩, hl, ht⟩ := bind_ok h
  exact lt_of_le_of_lt (take_length ht) (readVarint_consumes b l r hl)

theorem skipField_length {wireType : ℕ} (h : skipField wireType b = .ok rest) :
    rest.length ≤ b.length := by
  unfold skipField at h
  split at h
  · obtain ⟨⟨v, r⟩, hv, rfl⟩ := map_ok h
    exact (readVarint_consumes b v r hv).le
  · obtain ⟨⟨v, r⟩, hv, rfl⟩ := map_ok h
    exact take_length hv
  · obtain ⟨⟨v, r⟩, hv, rfl⟩ := map_ok h
    exact (readLengthDelimited_consumes b v r hv).le
  · obtain ⟨⟨v, r⟩, hv, rfl⟩ := map_ok h
    exact take_length hv
  · cases h

end MumbleServer.Wire

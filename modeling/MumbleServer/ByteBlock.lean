import Mathlib.Data.List.Basic
import Mathlib.Tactic.Ring
import Mathlib.Tactic.NormNum
import Mathlib.Tactic.Linarith

/-! # Fixed-width byte blocks as little-endian counters

`Block n` is an array of exactly `n` bytes.  Read with the least significant byte first it
is a counter modulo `256 ^ n` (`Block.val`), and the usual in-place ripple increment
`for i := k; i < n; i++ { b[i]++; if b[i] != 0 { break } }` is `Block.bump k`.

The lemmas describe every operation through the value, and two blocks with equal values are equal
(`val_injective`), so an argument about blocks can be carried out on natural numbers. -/

namespace MumbleServer

open List

/-- Byte strings of any length. -/
abbrev Bytes := List UInt8

/-- The natural number with the given little-endian bytes. -/
def leVal : Bytes → ℕ
  | [] => 0
  | b :: bs => b.toNat + 256 * leVal bs

/-- Ripple increment: add one to the first byte and carry on while a byte wraps to zero. -/
def ripple : Bytes → Bytes
  | [] => []
  | b :: bs => if b + 1 = 0 then 0 :: ripple bs else (b + 1) :: bs

variable (bs : Bytes)

theorem ripple_length : (ripple bs).length = bs.length := by
  induction bs with
  | nil => rfl
  | cons b bs ih =>
    simp only [ripple]
    split_ifs <;> simp [ih]

theorem leVal_lt : leVal bs < 256 ^ bs.length := by
  induction bs with
  | nil => simp [leVal]
  | cons b bs ih =>
    have hb : b.toNat < 256 := b.toNat_lt
    rw [leVal, length_cons, pow_succ]
    omega

theorem add_one_eq_zero_iff (b : UInt8) : b + 1 = 0 ↔ b.toNat = 255 := by
  have hb : b.toNat < 256 := b.toNat_lt
  rw [← UInt8.toNat_inj, UInt8.toNat_add, UInt8.toNat_one, UInt8.toNat_zero]
  omega

/-- The ripple increment adds one modulo the range of the counter. -/
theorem leVal_ripple : leVal (ripple bs) = (leVal bs + 1) % 256 ^ bs.length := by
  induction bs with
  | nil => simp [ripple, leVal]
  | cons b bs ih =>
    have hb : b.toNat < 256 := b.toNat_lt
    have hlt := leVal_lt bs
    have hlt' := leVal_lt (b :: bs)
    simp only [ripple]
    rw [length_cons, pow_succ] at hlt' ⊢
    split_ifs with h
    · rw [add_one_eq_zero_iff] at h
      have e : leVal (b :: bs) + 1 = 256 * (leVal bs + 1) := by
        simp only [leVal, h]; ring
      rw [e, leVal, ih, UInt8.toNat_zero, Nat.mul_comm (256 ^ bs.length) 256,
        Nat.mul_mod_mul_left]
      ring
    · rw [add_one_eq_zero_iff] at h
      have e : (b + 1).toNat = b.toNat + 1 := by
        rw [UInt8.toNat_add, UInt8.toNat_one]
        omega
      simp only [leVal] at hlt' ⊢
      rw [e, Nat.mod_eq_of_lt (by omega)]
      ring

theorem leVal_injective {as bs : Bytes} (hl : as.length = bs.length)
    (h : leVal as = leVal bs) : as = bs := by
  induction as generalizing bs with
  | nil => cases bs with
    | nil => rfl
    | cons b bs => simp at hl
  | cons a as ih => cases bs with
    | nil => simp at hl
    | cons b bs =>
      have ha : a.toNat < 256 := a.toNat_lt
      have hb : b.toNat < 256 := b.toNat_lt
      simp only [leVal] at h
      have hd : a = b := UInt8.toNat_inj.mp (by omega)
      have ht : as = bs := ih (by simpa using hl) (by omega)
      rw [hd, ht]

theorem getD_toNat (i : ℕ) : (bs.getD i 0).toNat = leVal bs / 256 ^ i % 256 := by
  induction bs generalizing i with
  | nil => simp [leVal]
  | cons b bs ih =>
    have hb : b.toNat < 256 := b.toNat_lt
    cases i with
    | zero => simp only [getD_cons_zero, leVal, pow_zero, Nat.div_one]; omega
    | succ i =>
      rw [getD_cons_succ, ih, pow_succ', ← Nat.div_div_eq_div_mul, leVal]
      congr 2
      omega

/-- An array of exactly `n` bytes. -/
structure Block (n : ℕ) where
  bytes : Bytes
  length_bytes : bytes.length = n
deriving DecidableEq

namespace Block

variable {n : ℕ}

def zero (n : ℕ) : Block n := ⟨List.replicate n 0, by simp⟩

/-- The byte at index `i`. -/
def get (b : Block n) (i : ℕ) : UInt8 := b.bytes.getD i 0

/-- Overwrite the byte at index `i`. -/
def put (b : Block n) (i : ℕ) (x : UInt8) : Block n :=
  ⟨b.bytes.set i x, by simp [b.length_bytes]⟩

/-- Ripple increment starting at index `k`. -/
def bump (b : Block n) (k : ℕ) : Block n :=
  ⟨b.bytes.take k ++ ripple (b.bytes.drop k), by
    have := b.length_bytes
    simp only [length_append, length_take, ripple_length, length_drop]
    omega⟩

def val (b : Block n) : ℕ := leVal b.bytes

variable (b : Block n)

theorem get_put {i : ℕ} (hi : i < n) (j : ℕ) (x : UInt8) :
    (b.put i x).get j = if j = i then x else b.get j := by
  unfold get put
  by_cases h : j = i
  · subst h
    simp [List.getD, b.length_bytes, hi]
  · simp [List.getD, h, Ne.symm h]

theorem val_lt : b.val < 256 ^ n := by
  have := leVal_lt b.bytes
  rwa [b.length_bytes] at this

theorem val_injective {a b : Block n} (h : a.val = b.val) : a = b := by
  cases a with | mk as ha =>
  cases b with | mk bs hb =>
  have : as = bs := leVal_injective (ha.trans hb.symm) h
  subst this
  rfl

theorem val_inj {a b : Block n} : a.val = b.val ↔ a = b := ⟨val_injective, fun h => h ▸ rfl⟩

theorem get_val (i : ℕ) : (b.get i).toNat = b.val / 256 ^ i % 256 :=
  getD_toNat b.bytes i

theorem get_zero_val : (b.get 0).toNat = b.val % 256 := by simp [get_val]

theorem get_one_val : (b.get 1).toNat = b.val / 256 % 256 := by simp [get_val]

theorem val_bump_zero : (b.bump 0).val = (b.val + 1) % 256 ^ n := by
  simp only [val, bump, take_zero, drop_zero, nil_append]
  rw [leVal_ripple, b.length_bytes]

/-- The block after `k` increments. -/
def advance (b : Block n) : ℕ → Block n
  | 0 => b
  | k + 1 => (b.advance k).bump 0

theorem val_advance (k : ℕ) : (b.advance k).val = (b.val + k) % 256 ^ n := by
  induction k with
  | zero => rw [advance, Nat.add_zero, Nat.mod_eq_of_lt b.val_lt]
  | succ k ih => rw [advance, val_bump_zero, ih, Nat.mod_add_mod, Nat.add_assoc]

theorem advance_advance (j k : ℕ) : (b.advance j).advance k = b.advance (j + k) := by
  apply val_injective
  rw [val_advance, val_advance, val_advance, Nat.mod_add_mod, Nat.add_assoc]

theorem val_put_zero (b : Block (n + 1)) (x : UInt8) :
    (b.put 0 x).val = x.toNat + 256 * (b.val / 256) := by
  obtain ⟨bytes, hl⟩ := b
  cases bytes with
  | nil => simp at hl
  | cons a as =>
    have ha : a.toNat < 256 := a.toNat_lt
    simp only [val, put, set_cons_zero, leVal]
    congr 2
    omega

theorem val_bump_one (b : Block (n + 1)) :
    (b.bump 1).val = b.val % 256 + 256 * ((b.val / 256 + 1) % 256 ^ n) := by
  obtain ⟨bytes, hl⟩ := b
  cases bytes with
  | nil => simp at hl
  | cons a as =>
    have ha : a.toNat < 256 := a.toNat_lt
    have hn : as.length = n := by simpa using hl
    simp only [val, bump, take_succ_cons, take_zero, drop_succ_cons,
      drop_zero, cons_append, nil_append, leVal]
    rw [leVal_ripple, hn]
    have e1 : (a.toNat + 256 * leVal as) % 256 = a.toNat := by omega
    have e2 : (a.toNat + 256 * leVal as) / 256 = leVal as := by omega
    rw [e1, e2]

end Block

end MumbleServer

import Mathlib.Data.Nat.Bitwise
import Mathlib.Tactic.Ring

/-! # Bytes of a number, the highest first

`bytes k v` are the lowest `k` bytes of a 64-bit number, and `push x b` shifts bytes in below a
number.  A number is its upper part with its lower bytes pushed in (`push_bytes`). -/

namespace MumbleServer.BigEndian

open Nat

/-- The lowest `k` bytes of a number, the highest first. -/
def bytes : ℕ → UInt64 → List UInt8
  | 0, _ => []
  | k + 1, v => (v >>> UInt64.ofNat (8 * k)).toUInt8 :: bytes k v

/-- Bytes shifted in below a number. -/
def push (x : UInt64) (b : List UInt8) : UInt64 := b.foldl (fun x c => (x <<< 8) ||| c.toUInt64) x

@[simp] theorem length_bytes (k : ℕ) (v : UInt64) : (bytes k v).length = k := by
  induction k with
  | zero => rfl
  | succ k ih => simp [bytes, ih]

theorem toNat_shiftRight (v : UInt64) {k : ℕ} (hk : k < 8) :
    (v >>> UInt64.ofNat (8 * k)).toNat = v.toNat / 256 ^ k := by
  have hmod : (UInt64.ofNat (8 * k)).toNat % 64 = 8 * k := by
    rw [UInt64.toNat_ofNat', Nat.mod_mod_of_dvd _ (by decide)]
    exact Nat.mod_eq_of_lt (by omega)
  rw [UInt64.toNat_shiftRight, hmod, Nat.shiftRight_eq_div_pow, Nat.pow_mul]

theorem toNat_or_byte {x : UInt64} (hx : x.toNat < 2 ^ 56) (c : UInt8) :
    ((x <<< 8) ||| c.toUInt64).toNat = 256 * x.toNat + c.toNat := by
  have hshift : (x <<< 8).toNat = 2 ^ 8 * x.toNat := by
    rw [UInt64.toNat_shiftLeft, show (8 : UInt64).toNat % 64 = 8 from rfl, shiftLeft_eq,
      mul_comm]
    exact mod_eq_of_lt (by omega)
  rw [UInt64.toNat_or, hshift, UInt8.toNat_toUInt64, ← two_pow_add_eq_or_of_lt c.toNat_lt]

theorem toNat_push {k : ℕ} (hk : k ≤ 8) {x v : UInt64}
    (hx : x.toNat * 256 ^ k + 256 ^ k ≤ 2 ^ 64) :
    (push x (bytes k v)).toNat = x.toNat * 256 ^ k + v.toNat % 256 ^ k := by
  induction k generalizing x with
  | zero => simp [push, bytes, mod_one]
  | succ k ih =>
    have hpow : (256 : ℕ) ^ (k + 1) = 256 ^ k * 256 := Nat.pow_succ 256 k
    have hpos : 0 < 256 ^ k := Nat.pow_pos (by decide)
    set c := (v >>> UInt64.ofNat (8 * k)).toUInt8 with hc
    have hbyte : c.toNat = v.toNat / 256 ^ k % 256 := by
      rw [hc, UInt64.toNat_toUInt8, toNat_shiftRight v (by omega)]
    have hsmall : x.toNat < 2 ^ 56 := by
      by_contra hlarge
      have := Nat.mul_le_mul (Nat.le_of_not_lt hlarge) (Nat.one_le_pow k 256 (by decide))
      have : 2 ^ 56 * 256 ≤ x.toNat * 256 ^ (k + 1) := by
        rw [hpow, ← Nat.mul_assoc]
        omega
      omega
    have hstep := toNat_or_byte hsmall c
    have hnext : ((x <<< 8) ||| c.toUInt64).toNat * 256 ^ k + 256 ^ k ≤ 2 ^ 64 := by
      refine le_trans ?_ hx
      have hc256 := c.toNat_lt
      calc ((x <<< 8) ||| c.toUInt64).toNat * 256 ^ k + 256 ^ k
          = (256 * x.toNat + c.toNat + 1) * 256 ^ k := by rw [hstep]; ring
        _ ≤ (256 * x.toNat + 256) * 256 ^ k := mul_le_mul_right _ (by omega)
        _ = x.toNat * 256 ^ (k + 1) + 256 ^ (k + 1) := by rw [hpow]; ring
    calc (push x (bytes (k + 1) v)).toNat
        = (push ((x <<< 8) ||| c.toUInt64) (bytes k v)).toNat := rfl
      _ = (256 * x.toNat + c.toNat) * 256 ^ k + v.toNat % 256 ^ k := by
          rw [ih (by omega) hnext, hstep]
      _ = x.toNat * 256 ^ (k + 1) + v.toNat % 256 ^ (k + 1) := by
          rw [hpow, mod_mul, hbyte]
          ring

/-- **A number is its upper part with its lower bytes pushed in**. -/
theorem push_bytes {k : ℕ} (hk : k ≤ 8) {x v : UInt64} (hx : x.toNat = v.toNat / 256 ^ k) :
    push x (bytes k v) = v := by
  have hdiv : v.toNat / 256 ^ k * 256 ^ k + v.toNat % 256 ^ k = v.toNat := by
    rw [mul_comm]
    exact div_add_mod _ _
  have hbound : x.toNat * 256 ^ k + 256 ^ k ≤ 2 ^ 64 := by
    have hpow : (2 : ℕ) ^ 64 = 256 ^ (8 - k) * 256 ^ k := by
      rw [← Nat.pow_add, Nat.sub_add_cancel hk]
      norm_num
    have hlt : v.toNat / 256 ^ k < 256 ^ (8 - k) := by
      rw [Nat.div_lt_iff_lt_mul (Nat.pow_pos (by decide)), ← hpow]
      exact v.toNat_lt
    rw [hx, hpow, ← Nat.succ_mul]
    exact mul_le_mul_right _ hlt
  apply UInt64.toNat_inj.mp
  rw [toNat_push hk hbound, hx, hdiv]

end MumbleServer.BigEndian

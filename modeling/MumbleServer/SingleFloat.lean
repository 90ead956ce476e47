import MumbleServer.Gather

/-! # Comparing single-precision numbers

A single-precision number is its 32 bits: a sign and a magnitude, where larger magnitudes are
larger numbers, the infinities included, and magnitudes above that of the infinities are not
numbers.  `gt` is the comparison `>`, which never holds for what is not a number.  Keeping the
larger of two numbers picks a largest one (`picks_larger`); the two zeros are equally large. -/

namespace MumbleServer.SingleFloat

def one : UInt32 := 0x3F800000

/-- The bits without the sign. -/
def magnitude (b : UInt32) : ℕ := b.toNat % 2147483648

def isNaN (b : UInt32) : Bool := decide (0x7F800000 < magnitude b)

/-- The order of the numbers, as integers. -/
def rank (b : UInt32) : Int := if b.toNat < 2147483648 then magnitude b else -(magnitude b)

/-- `a > b`. -/
def gt (a b : UInt32) : Bool := !isNaN a && !isNaN b && decide (rank b < rank a)

/-- The larger of two numbers; the first if they are equally large. -/
def larger (a b : UInt32) : UInt32 := if gt b a then b else a

section order
variable {a b : UInt32}

theorem gt_eq_true : gt a b = true ↔ isNaN a = false ∧ isNaN b = false ∧ rank b < rank a := by
  simp [gt, and_assoc]

theorem gt_eq_false (ha : isNaN a = false) (hb : isNaN b = false) :
    gt a b = false ↔ rank a ≤ rank b := by
  simp [gt, ha, hb]

theorem picks_larger :
    Gather.Picks (fun a => isNaN a = false) larger fun a b => gt a b = false where
  pick a b := by
    unfold larger
    split_ifs
    · exact .inr rfl
    · exact .inl rfl
  left a b ha hb := by
    unfold larger
    split_ifs with h
    · exact (gt_eq_false ha hb).mpr (Int.le_of_lt (gt_eq_true.mp h).2.2)
    · exact (gt_eq_false ha ha).mpr (Int.le_refl _)
  right a b ha hb := by
    unfold larger
    split_ifs with h
    · exact (gt_eq_false hb hb).mpr (Int.le_refl _)
    · exact Bool.eq_false_iff.mpr h
  refl a ha := (gt_eq_false ha ha).mpr (Int.le_refl _)
  trans a b c ha hb hc hab hbc := by
    rw [gt_eq_false ha hc]
    exact Int.le_trans ((gt_eq_false ha hb).mp hab) ((gt_eq_false hb hc).mp hbc)

end order

end MumbleServer.SingleFloat

import Mathlib.Data.Rat.Floor

/-! # Truncation toward zero

The conversion of a fraction to an integer that drops what is behind the point.
-/

namespace BBNotifier.Foundation

/-- Round toward zero. -/
def truncate (fraction : Rat) : Int := if 0 ≤ fraction then ⌊fraction⌋ else ⌈fraction⌉

/-- What becomes nonnegative is all above minus one. -/
theorem truncate_nonneg_iff {fraction : Rat} : 0 ≤ truncate fraction ↔ -1 < fraction := by
  rw [truncate]
  split
  next hnonneg =>
    exact iff_of_true (Int.floor_nonneg.mpr hnonneg) (lt_of_lt_of_le (by norm_num) hnonneg)
  · have hceil : -1 < ⌈fraction⌉ ↔ ((-1 : Int) : Rat) < fraction := Int.lt_ceil
    rw [Int.cast_neg, Int.cast_one] at hceil
    exact hceil

theorem truncate_le_iff {fraction : Rat} {bound : Int} (hbound : 0 ≤ bound) :
    truncate fraction ≤ bound ↔ fraction < bound + 1 := by
  rw [truncate]
  split
  · rw [Int.le_iff_lt_add_one, Int.floor_lt, Int.cast_add, Int.cast_one]
  next hneg =>
    have hcast : (0 : Rat) ≤ bound := Int.cast_nonneg hbound
    have hceil : ⌈fraction⌉ ≤ bound := Int.ceil_le.mpr ((not_le.mp hneg).le.trans hcast)
    exact iff_of_true hceil ((not_le.mp hneg).trans (lt_of_le_of_lt hcast (lt_add_one _)))

end BBNotifier.Foundation

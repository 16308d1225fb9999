import Autocomp.Lib.MachineInt
import Mathlib.Data.Rat.Floor

namespace MachineInt

def truncate (x : ℚ) : Int := x.num.tdiv x.den

/-- `int n = x` for a floating-point `x`, if it has a meaning. -/
def ofRat (x : ℚ) : Option Int :=
  if intMin ≤ truncate x ∧ truncate x < 2 ^ 31 then some (truncate x) else none

theorem truncate_of_nonneg {x : ℚ} (h : 0 ≤ x) : truncate x = ⌊x⌋ := by
  rw [truncate, Rat.floor_def', Int.tdiv_eq_ediv_of_nonneg (Rat.num_nonneg.mpr h)]

theorem truncate_neg (x : ℚ) : truncate (-x) = -truncate x := by
  rw [truncate, truncate, Rat.neg_num, Rat.neg_den, Int.neg_tdiv]

theorem truncate_natCast_div (n d : Nat) : truncate ((n : ℚ) / d) = (n / d : Nat) := by
  rw [truncate_of_nonneg (by positivity), Rat.floor_natCast_div_natCast]
  rfl

theorem truncate_lt_iff (x : ℚ) {n : Int} (hn : 0 < n) : truncate x < n ↔ x < n := by
  by_cases hx : 0 ≤ x
  · rw [truncate_of_nonneg hx, Int.floor_lt]
  · rw [not_le] at hx
    have hpos : (0 : ℚ) < n := by exact_mod_cast hn
    have hneg : 0 ≤ truncate (-x) := by
      rw [truncate_of_nonneg (by linarith)]
      exact Int.floor_nonneg.mpr (by linarith)
    rw [truncate_neg] at hneg
    exact iff_of_true (by omega) (hx.trans hpos)

theorem ofRat_eq_some_iff (x : ℚ) :
    ofRat x = some (truncate x) ↔ -2147483649 < x ∧ x < 2147483648 := by
  have hhigh := truncate_lt_iff x (n := 2 ^ 31) (by norm_num)
  have hlow := truncate_lt_iff (-x) (n := 2147483649) (by norm_num)
  rw [truncate_neg] at hlow
  have hmin : intMin ≤ truncate x ↔ -2147483649 < x := by
    constructor
    · intro h
      have := hlow.mp (by unfold intMin at h; omega)
      push_cast at this
      linarith
    · intro h
      have := hlow.mpr (by push_cast; linarith)
      unfold intMin
      omega
  have hmax : truncate x < 2 ^ 31 ↔ x < 2147483648 := by
    rw [hhigh]
    norm_num
  rw [ofRat, Option.ite_none_right_eq_some, hmin, hmax]
  exact and_iff_left rfl

end MachineInt

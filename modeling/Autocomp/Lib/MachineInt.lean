import Mathlib.Tactic.NormNum
import Mathlib.Data.Int.Init

namespace MachineInt

/-- `int x = n` for an unsigned 64-bit `n`. -/
def toInt32 (n : Nat) : Int := (BitVec.ofNat 32 n).toInt

def intMin : Int := -2147483648

/-- `size_t n = x` for a signed `x`. -/
def toSize (x : Int) : Nat := (x % 2 ^ 64).toNat

theorem toInt32_eq (n : Nat) : toInt32 n = Int.bmod n (2 ^ 32) :=
  BitVec.toInt_ofNat' ..

theorem toInt32_of_lt {n : Nat} (h : n < 2 ^ 31) : toInt32 n = n := by
  rw [toInt32_eq, Int.bmod_def]
  omega

theorem toInt32_lt (n : Nat) : toInt32 n < 2 ^ 31 := by
  rw [toInt32_eq, Int.bmod_def]
  omega

theorem intMin_le_toInt32 (n : Nat) : intMin ≤ toInt32 n := by
  rw [toInt32_eq, Int.bmod_def, intMin]
  omega

/-- The conversion is exact or loses a multiple of `2 ^ 32`. -/
theorem toInt32_le (n : Nat) : toInt32 n ≤ n := by
  rw [toInt32_eq, Int.bmod_def]
  omega

theorem lt_of_toInt32_nonneg {n : Nat} (hn : n < 2 ^ 32) (h : 0 ≤ toInt32 n) : n < 2 ^ 31 := by
  rw [toInt32_eq, Int.bmod_def] at h
  omega

theorem toInt32_add_le {n : Nat} (h : 2 ^ 31 ≤ n) : toInt32 n + 2 ^ 32 ≤ n := by
  rw [toInt32_eq, Int.bmod_def]
  omega

theorem toInt32_add_lost {n c : Nat} (hn : n < 2 ^ 31) (hc : 0 ≤ toInt32 c) :
    toInt32 (n + (c - (toInt32 c).toNat)) = n := by
  have hmod : toInt32 c = c % 2 ^ 32 := by
    rw [toInt32_eq, Int.bmod_def] at hc ⊢
    omega
  rw [show c - (toInt32 c).toNat = 2 ^ 32 * (c / 2 ^ 32) by omega, toInt32_eq, Int.bmod_def]
  omega

theorem toSize_of_nonneg {x : Int} (h : 0 ≤ x) (hx : x < 2 ^ 64) : toSize x = x.toNat := by
  unfold toSize
  rw [Int.emod_eq_of_lt h hx]

end MachineInt

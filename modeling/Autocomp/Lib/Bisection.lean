import Mathlib.Algebra.Order.Ring.Int

namespace Bisection

/-- The search among the integers from `low` on. The predicate is taken to hold at `low`. -/
def bisect (p : Int → Bool) : Nat → Int → Int
  | 0, low => low
  | bits + 1, low =>
    if p (low + 2 ^ bits) then bisect p bits (low + 2 ^ bits) else bisect p bits low

theorem bisect_mem (p : Int → Bool) (bits : Nat) (low : Int) :
    low ≤ bisect p bits low ∧ bisect p bits low < low + 2 ^ bits := by
  induction bits generalizing low with
  | zero =>
    rw [bisect, pow_zero]
    omega
  | succ bits ih =>
    have hpos : (0 : Int) < 2 ^ bits := pow_pos (by decide) bits
    have hlow := ih low
    have hhigh := ih (low + 2 ^ bits)
    rw [bisect, pow_succ]
    split <;> omega

/-- Above `low` a predicate that what is smaller inherits holds exactly up to the result. -/
theorem le_bisect_iff {p : Int → Bool} (hp : ∀ x y, x ≤ y → p y = true → p x = true) {bits : Nat}
    {low x : Int} (hlow : low < x) (hhigh : x < low + 2 ^ bits) :
    p x = true ↔ x ≤ bisect p bits low := by
  induction bits generalizing low with
  | zero =>
    rw [pow_zero] at hhigh
    omega
  | succ bits ih =>
    have hpos : (0 : Int) < 2 ^ bits := pow_pos (by decide) bits
    rw [pow_succ] at hhigh
    rw [bisect]
    by_cases hmiddle : p (low + 2 ^ bits) = true
    · rw [if_pos hmiddle]
      by_cases hx : x ≤ low + 2 ^ bits
      · exact iff_of_true (hp _ _ hx hmiddle) (le_trans hx (bisect_mem p bits _).1)
      · exact ih (not_le.mp hx) (by omega)
    · rw [if_neg hmiddle]
      by_cases hx : low + 2 ^ bits ≤ x
      · apply iff_of_false
        · exact fun h => hmiddle (hp _ _ hx h)
        · have := (bisect_mem p bits low).2
          omega
      · exact ih hlow (not_le.mp hx)

end Bisection

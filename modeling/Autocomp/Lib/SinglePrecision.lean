import Mathlib.Data.Int.Log
import Mathlib.Data.Rat.Floor
import Mathlib.Tactic.NormNum

/-!
# Single-precision arithmetic

A finite `float` is a rational number with a significand of 24 bits. A conversion from an integer,
a product and a decimal text are rounded to the nearest value that has one, and to the even one of
two that are equally near.
-/

namespace SinglePrecision

/-- An integer rounded to 24 significant bits. -/
def round (n : Nat) : Nat :=
  if n < 2 ^ 24 then n
  else
    let unit := 2 ^ (n.log2 - 23)
    let quotient := n / unit
    let remainder := n % unit
    if 2 * remainder < unit then quotient * unit
    else if unit < 2 * remainder then (quotient + 1) * unit
    else (quotient + quotient % 2) * unit

def ofInt (x : Int) : Int := if x < 0 then -round x.natAbs else round x.natAbs

/-- A constant with `significand / 2 ^ scale`. -/
structure Constant where
  significand : Nat
  scale : Nat

/-- The product with an integer, converted to an integer. -/
def Constant.scaled (c : Constant) (n : Nat) : Nat :=
  round (c.significand * round n) / 2 ^ c.scale

theorem round_of_lt {n : Nat} (h : n < 2 ^ 24) : round n = n := if_pos h

theorem le_round {n : Nat} (h : 2 ^ 24 ≤ n) : 2 ^ 24 ≤ round n := by
  have hlog : 24 ≤ n.log2 := (Nat.le_log2 (by omega)).mpr h
  have hunit : 0 < 2 ^ (n.log2 - 23) := Nat.two_pow_pos _
  have hquotient : 2 ^ 23 ≤ n / 2 ^ (n.log2 - 23) := by
    rw [Nat.le_div_iff_mul_le hunit, ← Nat.pow_add, Nat.add_sub_cancel' (by omega)]
    exact Nat.log2_self_le (by omega)
  have hdown : 2 ^ 24 ≤ n / 2 ^ (n.log2 - 23) * 2 ^ (n.log2 - 23) := by
    calc 2 ^ 24 = 2 ^ 23 * 2 ^ 1 := by norm_num
      _ ≤ _ := Nat.mul_le_mul hquotient (Nat.pow_le_pow_right (by omega) (by omega))
  have hup : ∀ k, 2 ^ 24 ≤ (n / 2 ^ (n.log2 - 23) + k) * 2 ^ (n.log2 - 23) := by
    intro k
    rw [Nat.add_mul]
    exact hdown.trans (Nat.le_add_right ..)
  rw [round, if_neg (Nat.not_lt.mpr h)]
  dsimp only
  split
  · exact hdown
  · split
    · exact hup 1
    · exact hup _

theorem round_pos {n : Nat} (h : 0 < n) : 0 < round n := by
  by_cases hn : n < 2 ^ 24
  · rwa [round_of_lt hn]
  · have hle := le_round (Nat.not_lt.mp hn)
    omega

theorem round_le (n : Nat) : round n ≤ 2 * n := by
  by_cases hn : n < 2 ^ 24
  · rw [round_of_lt hn]
    omega
  · have hunit : 2 ^ (n.log2 - 23) ≤ n :=
      (Nat.pow_le_pow_right (by omega) (Nat.sub_le ..)).trans (Nat.log2_self_le (by omega))
    have hdown := Nat.div_mul_le_self n (2 ^ (n.log2 - 23))
    have hup : (n / 2 ^ (n.log2 - 23) + 1) * 2 ^ (n.log2 - 23) ≤ 2 * n := by
      rw [Nat.add_mul]
      omega
    have heven : (n / 2 ^ (n.log2 - 23) + n / 2 ^ (n.log2 - 23) % 2) * 2 ^ (n.log2 - 23) ≤
        2 * n := by
      apply Nat.le_trans (Nat.mul_le_mul_right _ _) hup
      omega
    rw [round, if_neg hn]
    dsimp only
    split
    · omega
    · split
      · exact hup
      · exact heven

/-- Rounding does not carry an `int` over a small bound. -/
theorem ofInt_le_iff {x : Int} {bound : ℚ} (hbound : |bound| < 2 ^ 24) :
    (ofInt x : ℚ) ≤ bound ↔ (x : ℚ) ≤ bound := by
  obtain ⟨hlow, hhigh⟩ := abs_lt.mp hbound
  by_cases hsmall : x.natAbs < 2 ^ 24
  · have hexact : ofInt x = x := by
      rw [ofInt, round_of_lt hsmall]
      split <;> omega
    rw [hexact]
  · have hround := le_round (Nat.not_lt.mp hsmall)
    by_cases hneg : x < 0
    · have hx : ofInt x ≤ -2 ^ 24 ∧ x ≤ -2 ^ 24 := by
        rw [ofInt, if_pos hneg]
        omega
      have hq : (ofInt x : ℚ) ≤ -2 ^ 24 ∧ (x : ℚ) ≤ -2 ^ 24 := by exact_mod_cast hx
      exact iff_of_true (hq.1.trans hlow.le) (hq.2.trans hlow.le)
    · have hx : 2 ^ 24 ≤ ofInt x ∧ 2 ^ 24 ≤ x := by
        rw [ofInt, if_neg hneg]
        omega
      have hq : (2 ^ 24 : ℚ) ≤ ofInt x ∧ (2 ^ 24 : ℚ) ≤ x := by exact_mod_cast hx
      exact iff_of_false (not_le.mpr (hhigh.trans_le hq.1)) (not_le.mpr (hhigh.trans_le hq.2))

def roundHalfEven (q : ℚ) : Int :=
  let floor := ⌊q⌋
  if q - floor < 1 / 2 then floor
  else if 1 / 2 < q - floor then floor + 1
  else floor + floor % 2

/-- The nearest `float`, or nothing if the value is too large for one. Below the least normal number
the unit stays the same. -/
def nearest (q : ℚ) : Option ℚ :=
  if q = 0 then some 0
  else
    let unit : ℚ := 2 ^ (max (Int.log 2 |q|) (-126) - 23)
    let magnitude := roundHalfEven (|q| / unit) * unit
    if 2 ^ 128 ≤ magnitude then none
    else some (if q < 0 then -magnitude else magnitude)

theorem roundHalfEven_mem {q : ℚ} {low high : Int} (hlow : low ≤ q) (hhigh : q < high) :
    low ≤ roundHalfEven q ∧ roundHalfEven q ≤ high := by
  have hfloor : low ≤ ⌊q⌋ := Int.le_floor.mpr hlow
  have hbelow : ⌊q⌋ < high := Int.floor_lt.mpr hhigh
  unfold roundHalfEven
  dsimp only
  split
  · omega
  · split <;> omega

theorem roundHalfEven_natCast (m : Nat) : roundHalfEven m = m := by
  rw [roundHalfEven, Int.floor_natCast]
  simp

theorem nearest_exact {q : ℚ} {m : Nat} {e : Int} (hm : 2 ^ 23 ≤ m ∧ m < 2 ^ 24)
    (he : -126 ≤ e ∧ e < 128) (hq : |q| = m * 2 ^ (e - 23)) : nearest q = some q := by
  have hunit : (0 : ℚ) < 2 ^ (e - 23) := zpow_pos (by norm_num) _
  have hm' : (2 ^ 23 : ℚ) ≤ m ∧ (m : ℚ) < 2 ^ 24 := by exact_mod_cast hm
  have hlow : (2 : ℚ) ^ e ≤ |q| := by
    calc (2 : ℚ) ^ e = 2 ^ 23 * 2 ^ (e - 23) := by
          rw [← zpow_natCast, ← zpow_add₀ (by norm_num)]
          congr 1
          omega
      _ ≤ |q| := by
          rw [hq]
          exact mul_le_mul_of_nonneg_right hm'.1 hunit.le
  have hhigh : |q| < (2 : ℚ) ^ (e + 1) := by
    calc |q| < 2 ^ 24 * 2 ^ (e - 23) := by
          rw [hq]
          exact mul_lt_mul_of_pos_right hm'.2 hunit
      _ = (2 : ℚ) ^ (e + 1) := by
          rw [← zpow_natCast, ← zpow_add₀ (by norm_num)]
          congr 1
          omega
  have hpos : 0 < |q| := (zpow_pos (by norm_num) e).trans_le hlow
  have hlog : Int.log 2 |q| = e := by
    apply le_antisymm
    · exact Int.lt_add_one_iff.mp ((Int.lt_zpow_iff_log_lt (by norm_num) hpos).mp hhigh)
    · exact (Int.zpow_le_iff_le_log (by norm_num) hpos).mp hlow
  have hquotient : |q| / 2 ^ (e - 23) = m := by rw [hq, mul_div_cancel_right₀ _ hunit.ne']
  have hlarge : ¬ (2 : ℚ) ^ 128 ≤ |q| := by
    have hle : (2 : ℚ) ^ (e + 1) ≤ 2 ^ (128 : Int) := zpow_le_zpow_right₀ (by norm_num) (by omega)
    rw [not_le]
    exact_mod_cast hhigh.trans_le hle
  rw [nearest, if_neg (abs_pos.mp hpos)]
  simp only [hlog, max_eq_left he.1, hquotient, roundHalfEven_natCast, Int.cast_natCast, ← hq,
    if_neg hlarge]
  split
  · rename_i hneg
    rw [abs_of_neg hneg, neg_neg]
  · rename_i hneg
    rw [abs_of_nonneg (not_lt.mp hneg)]

theorem nearest_pos {q r : ℚ} (hq : (2 : ℚ) ^ (-126 : Int) ≤ q) (h : nearest q = some r) : 0 < r := by
  have hpos : 0 < q := (zpow_pos (by norm_num) _).trans_le hq
  have habs : |q| = q := abs_of_pos hpos
  have hlog : -126 ≤ Int.log 2 q := (Int.zpow_le_iff_le_log (by norm_num) hpos).mp hq
  have hunit : (0 : ℚ) < 2 ^ (Int.log 2 q - 23) := zpow_pos (by norm_num) _
  have hlow : ((1 : Int) : ℚ) ≤ q / 2 ^ (Int.log 2 q - 23) := by
    rw [Int.cast_one, le_div_iff₀ hunit, one_mul]
    calc (2 : ℚ) ^ (Int.log 2 q - 23) ≤ 2 ^ Int.log 2 q :=
          zpow_le_zpow_right₀ (by norm_num) (by omega)
      _ ≤ q := (Int.zpow_le_iff_le_log (by norm_num) hpos).mpr le_rfl
  have hhigh : q / 2 ^ (Int.log 2 q - 23) < ((⌊q / 2 ^ (Int.log 2 q - 23)⌋ + 1 : Int) : ℚ) := by
    rw [Int.cast_add, Int.cast_one]
    exact Int.lt_floor_add_one _
  have hround := (roundHalfEven_mem hlow hhigh).1
  unfold nearest at h
  rw [if_neg hpos.ne', habs, max_eq_left hlog] at h
  dsimp only at h
  rw [if_neg hpos.not_gt] at h
  split at h
  · contradiction
  · rw [← Option.some.inj h]
    apply mul_pos _ hunit
    exact_mod_cast Int.lt_of_lt_of_le Int.one_pos hround

end SinglePrecision

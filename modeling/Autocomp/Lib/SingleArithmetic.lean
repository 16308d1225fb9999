import Autocomp.Lib.PyFloat
import Autocomp.Lib.SinglePrecision

/-!
# Operations on single-precision numbers

The result of an operation is the exact one, rounded. Rounding keeps the order, so a bound that is a
`float` itself is a bound of what is rounded too.
-/

namespace SinglePrecision

theorem abs_roundHalfEven_sub_le (q : ℚ) : |(roundHalfEven q : ℚ) - q| ≤ 1 / 2 := by
  have hfloor := Int.floor_le q
  have habove := Int.lt_floor_add_one q
  have hparity := Int.emod_two_eq_zero_or_one ⌊q⌋
  rw [abs_le]
  unfold roundHalfEven
  dsimp only
  split
  · constructor <;> linarith
  · split
    · push_cast
      constructor <;> linarith
    · rcases hparity with h | h <;>
      · rw [h]
        push_cast
        constructor <;> linarith

theorem roundHalfEven_mono {q r : ℚ} (h : q ≤ r) : roundHalfEven q ≤ roundHalfEven r := by
  by_contra hlt
  have hstep : (roundHalfEven r : ℚ) + 1 ≤ roundHalfEven q := by
    exact_mod_cast Int.add_one_le_of_lt (Int.not_le.mp hlt)
  have hq := abs_le.mp (abs_roundHalfEven_sub_le q)
  have hr := abs_le.mp (abs_roundHalfEven_sub_le r)
  have heq : q = r := by linarith
  rw [heq] at hlt
  exact hlt le_rfl

/-- The exponent of the last place of a number. -/
def lastPlace (q : ℚ) : Int := max (Int.log 2 q) (-126) - 23

/-- A number that is not negative, rounded to its last place. -/
def roundMagnitude (q : ℚ) : ℚ := roundHalfEven (q / 2 ^ lastPlace q) * 2 ^ lastPlace q

/-- The nearest `float` if the exponents had no bound. -/
def roundRat (q : ℚ) : ℚ := if q < 0 then -roundMagnitude |q| else roundMagnitude |q|

theorem roundMagnitude_zero : roundMagnitude 0 = 0 := by
  have hzero : roundHalfEven 0 = 0 := by
    have h := roundHalfEven_natCast 0
    rwa [Nat.cast_zero] at h
  rw [roundMagnitude, zero_div, hzero, Int.cast_zero, zero_mul]

theorem nearest_eq (q : ℚ) :
    nearest q = if 2 ^ 128 ≤ roundMagnitude |q| then none else some (roundRat q) := by
  by_cases hzero : q = 0
  · have hsmall : ¬ (2 ^ 128 : ℚ) ≤ 0 := by norm_num
    rw [nearest, if_pos hzero, hzero, roundRat, abs_zero, roundMagnitude_zero, if_neg hsmall,
      if_neg (lt_irrefl 0)]
  · rw [nearest, if_neg hzero]
    rfl

variable {q r : ℚ} {e : Int}

theorem two_zpow_pos (e : Int) : (0 : ℚ) < 2 ^ e := zpow_pos (by norm_num) _

theorem two_zpow_add (d e : Int) : (2 : ℚ) ^ (d + e) = 2 ^ d * 2 ^ e := zpow_add₀ (by norm_num) _ _

theorem two_zpow_div (h : lastPlace q ≤ e) :
    (2 : ℚ) ^ e / 2 ^ lastPlace q = ((2 ^ (e - lastPlace q).toNat : Nat) : ℚ) := by
  have hexp : (((e - lastPlace q).toNat : Nat) : Int) = e - lastPlace q := by omega
  rw [← zpow_sub₀ (by norm_num), Nat.cast_pow, Nat.cast_ofNat, ← zpow_natCast, hexp]

theorem roundMagnitude_le (hq : 0 < q) (he : -126 ≤ e) (h : q ≤ 2 ^ e) :
    roundMagnitude q ≤ 2 ^ e := by
  have hplace : lastPlace q ≤ e := by
    have hlog : Int.log 2 q ≤ Int.log 2 ((2 : ℚ) ^ e) := Int.log_mono_right hq h
    have hpow : Int.log 2 ((2 : ℚ) ^ e) = e := Int.log_zpow (by norm_num) _
    rw [lastPlace]
    omega
  have hunit := two_zpow_pos (lastPlace q)
  have hunits : q / 2 ^ lastPlace q ≤ ((2 ^ (e - lastPlace q).toNat : Nat) : ℚ) := by
    rw [← two_zpow_div hplace]
    exact div_le_div_of_nonneg_right h hunit.le
  have hround := roundHalfEven_mono hunits
  rw [roundHalfEven_natCast] at hround
  have hcast : (roundHalfEven (q / 2 ^ lastPlace q) : ℚ) ≤ 2 ^ e / 2 ^ lastPlace q := by
    rw [two_zpow_div hplace]
    exact_mod_cast hround
  exact (le_div_iff₀ hunit).mp hcast

theorem le_roundMagnitude (he : -126 ≤ e) (h : 2 ^ e ≤ q) : 2 ^ e ≤ roundMagnitude q := by
  have hpos : 0 < q := (two_zpow_pos e).trans_le h
  have hlog : e ≤ Int.log 2 q := (Int.zpow_le_iff_le_log (by norm_num) hpos).mp h
  have hplace : lastPlace q = Int.log 2 q - 23 := by
    rw [lastPlace]
    omega
  have hunit := two_zpow_pos (lastPlace q)
  have hself : (2 : ℚ) ^ Int.log 2 q ≤ q := (Int.zpow_le_iff_le_log (by norm_num) hpos).mpr le_rfl
  have hunits : ((2 ^ (Int.log 2 q - lastPlace q).toNat : Nat) : ℚ) ≤ q / 2 ^ lastPlace q := by
    rw [← two_zpow_div (by omega)]
    exact div_le_div_of_nonneg_right hself hunit.le
  have hround := roundHalfEven_mono hunits
  rw [roundHalfEven_natCast] at hround
  have hcast : (2 : ℚ) ^ Int.log 2 q / 2 ^ lastPlace q ≤
      (roundHalfEven (q / 2 ^ lastPlace q) : ℚ) := by
    rw [two_zpow_div (by omega)]
    exact_mod_cast hround
  calc (2 : ℚ) ^ e ≤ 2 ^ Int.log 2 q := zpow_le_zpow_right₀ (by norm_num) hlog
    _ ≤ roundMagnitude q := (div_le_iff₀ hunit).mp hcast

theorem lastPlace_mono (hq : 0 < q) (h : q ≤ r) : lastPlace q ≤ lastPlace r := by
  have hlog : Int.log 2 q ≤ Int.log 2 r := Int.log_mono_right hq h
  rw [lastPlace, lastPlace]
  omega

theorem lt_two_zpow (hq : 0 < q) : q < 2 ^ (lastPlace q + 24) := by
  have hlog : Int.log 2 q < lastPlace q + 24 := by
    rw [lastPlace]
    omega
  exact (Int.lt_zpow_iff_log_lt (by norm_num) hq).mpr hlog

/-- Two numbers with one last place are compared by their units; between two others lies a power of
two, which is a `float`. -/
theorem roundMagnitude_mono (hq : 0 ≤ q) (h : q ≤ r) : roundMagnitude q ≤ roundMagnitude r := by
  by_cases hzero : q = 0
  · have hnonneg : 0 ≤ roundHalfEven (r / 2 ^ lastPlace r) := by
      have hround := roundHalfEven_mono (q := ((0 : Nat) : ℚ)) (r := r / 2 ^ lastPlace r) (by
        rw [Nat.cast_zero]
        exact div_nonneg (hq.trans h) (two_zpow_pos _).le)
      rwa [roundHalfEven_natCast] at hround
    rw [hzero, roundMagnitude_zero]
    apply mul_nonneg _ (two_zpow_pos _).le
    exact_mod_cast hnonneg
  · have hpos : 0 < q := lt_of_le_of_ne hq (Ne.symm hzero)
    rcases (lastPlace_mono hpos h).eq_or_lt with heq | hlt
    · have hround : roundHalfEven (q / 2 ^ lastPlace r) ≤ roundHalfEven (r / 2 ^ lastPlace r) :=
        roundHalfEven_mono (div_le_div_of_nonneg_right h (two_zpow_pos _).le)
      rw [roundMagnitude, roundMagnitude, heq]
      apply mul_le_mul_of_nonneg_right _ (two_zpow_pos _).le
      exact_mod_cast hround
    · have hplace : lastPlace r = Int.log 2 r - 23 ∧ -149 ≤ lastPlace q := by
        rw [lastPlace] at hlt ⊢
        rw [lastPlace] at hlt ⊢
        omega
      have hrpos : 0 < r := hpos.trans_le h
      calc roundMagnitude q ≤ 2 ^ (lastPlace q + 24) :=
            roundMagnitude_le hpos (by omega) (lt_two_zpow hpos).le
        _ ≤ 2 ^ (Int.log 2 r) := zpow_le_zpow_right₀ (by norm_num) (by omega)
        _ ≤ roundMagnitude r :=
            le_roundMagnitude (by omega) ((Int.zpow_le_iff_le_log (by norm_num) hrpos).mpr le_rfl)

theorem roundRat_of_nonneg (h : 0 ≤ q) : roundRat q = roundMagnitude q := by
  rw [roundRat, if_neg (not_lt.mpr h), abs_of_nonneg h]

theorem roundRat_neg (q : ℚ) : roundRat (-q) = -roundRat q := by
  rcases lt_trichotomy q 0 with h | rfl | h
  · rw [roundRat, roundRat, if_neg (by linarith), if_pos h, abs_neg, neg_neg]
  · rw [neg_zero, roundRat_of_nonneg le_rfl, roundMagnitude_zero, neg_zero]
  · rw [roundRat, roundRat, if_pos (by linarith), if_neg (not_lt.mpr h.le), abs_neg]

theorem roundRat_zero : roundRat 0 = 0 := by
  rw [roundRat_of_nonneg le_rfl, roundMagnitude_zero]

theorem roundRat_nonneg (h : 0 ≤ q) : 0 ≤ roundRat q := by
  have hmono := roundMagnitude_mono le_rfl h
  rwa [roundMagnitude_zero, ← roundRat_of_nonneg h] at hmono

theorem roundRat_mono : Monotone roundRat := by
  intro q r h
  by_cases hq : 0 ≤ q
  · rw [roundRat_of_nonneg hq, roundRat_of_nonneg (hq.trans h)]
    exact roundMagnitude_mono hq h
  · have hneg : 0 ≤ -q := by linarith
    by_cases hr : 0 ≤ r
    · have hlow := roundRat_nonneg hneg
      rw [roundRat_neg] at hlow
      exact (by linarith : roundRat q ≤ 0).trans (roundRat_nonneg hr)
    · have hmono := roundMagnitude_mono (q := -r) (r := -q) (by linarith) (by linarith)
      rw [← roundRat_of_nonneg (by linarith), ← roundRat_of_nonneg hneg, roundRat_neg, roundRat_neg]
        at hmono
      linarith

theorem roundRat_exact {m : Nat} (hm : m < 2 ^ 24) (he : -149 ≤ e) :
    roundRat (m * 2 ^ e) = m * 2 ^ e := by
  by_cases hzero : m = 0
  · rw [hzero, Nat.cast_zero, zero_mul, roundRat_zero]
  · have hpos : (0 : ℚ) < m * 2 ^ e :=
      mul_pos (by exact_mod_cast Nat.pos_of_ne_zero hzero) (two_zpow_pos _)
    have hlt : (m * 2 ^ e : ℚ) < 2 ^ (24 + e) := by
      rw [two_zpow_add]
      apply mul_lt_mul_of_pos_right _ (two_zpow_pos _)
      exact_mod_cast hm
    have hlog : Int.log 2 (m * 2 ^ e : ℚ) < 24 + e :=
      (Int.lt_zpow_iff_log_lt (by norm_num) hpos).mp hlt
    have hplace : lastPlace (m * 2 ^ e) ≤ e := by
      rw [lastPlace]
      omega
    have hunits : (m * 2 ^ e : ℚ) / 2 ^ lastPlace (m * 2 ^ e) =
        ((m * 2 ^ (e - lastPlace (m * 2 ^ e)).toNat : Nat) : ℚ) := by
      rw [mul_div_assoc, two_zpow_div hplace, Nat.cast_mul]
    rw [roundRat_of_nonneg hpos.le, roundMagnitude, hunits, roundHalfEven_natCast, Int.cast_natCast,
      ← hunits, div_mul_cancel₀ _ (two_zpow_pos _).ne']

theorem roundRat_natCast_of_lt {n : Nat} (h : n < 2 ^ 24) : roundRat n = n := by
  have hexact := roundRat_exact h (by norm_num : (-149 : Int) ≤ 0)
  rwa [zpow_zero, mul_one] at hexact

theorem roundRat_ofNat_of_lt {n : Nat} [n.AtLeastTwo] (h : n < 2 ^ 24) :
    roundRat (OfNat.ofNat n) = OfNat.ofNat n := by
  have hcast := roundRat_natCast_of_lt h
  rwa [← Nat.cast_ofNat (R := ℚ)]

theorem roundHalfEven_div (n : Nat) {unit : Nat} (hunit : 0 < unit) :
    roundHalfEven ((n : ℚ) / unit) =
      if 2 * (n % unit) < unit then ((n / unit : Nat) : Int)
      else if unit < 2 * (n % unit) then ((n / unit + 1 : Nat) : Int)
      else ((n / unit + n / unit % 2 : Nat) : Int) := by
  have hpos : (0 : ℚ) < unit := by exact_mod_cast hunit
  have hfloor : ⌊(n : ℚ) / unit⌋ = ((n / unit : Nat) : Int) := Rat.floor_natCast_div_natCast n unit
  have hfraction : (n : ℚ) / unit - ((n / unit : Nat) : Int) = (n % unit : Nat) / unit := by
    have hdivision : (n : ℚ) = unit * (n / unit : Nat) + (n % unit : Nat) := by
      exact_mod_cast (Nat.div_add_mod n unit).symm
    rw [Int.cast_natCast, eq_div_iff hpos.ne', sub_mul, div_mul_cancel₀ _ hpos.ne']
    linarith
  have hless : (n : ℚ) / unit - ((n / unit : Nat) : Int) < 1 / 2 ↔ 2 * (n % unit) < unit := by
    rw [hfraction, div_lt_div_iff₀ hpos (by norm_num), mul_comm, one_mul]
    exact_mod_cast Iff.rfl
  have hmore : 1 / 2 < (n : ℚ) / unit - ((n / unit : Nat) : Int) ↔ unit < 2 * (n % unit) := by
    rw [hfraction, div_lt_div_iff₀ (by norm_num) hpos, mul_comm ((n % unit : Nat) : ℚ), one_mul]
    exact_mod_cast Iff.rfl
  unfold roundHalfEven
  dsimp only
  rw [hfloor]
  simp only [hless, hmore, Nat.cast_add, Nat.cast_one, Nat.cast_ofNat, Int.natCast_mod]

theorem le_log2_of_not_lt {n : Nat} (h : ¬ n < 2 ^ 24) : 24 ≤ n.log2 := by
  have hle : 2 ^ 24 ≤ n := Nat.not_lt.mp h
  exact (Nat.le_log2 (by omega)).mpr hle

theorem roundRat_natCast (n : Nat) : roundRat n = round n := by
  by_cases hsmall : n < 2 ^ 24
  · rw [roundRat_natCast_of_lt hsmall, round_of_lt hsmall]
  · have hlog := le_log2_of_not_lt hsmall
    have hplace : (2 : ℚ) ^ lastPlace n = ((2 ^ (n.log2 - 23) : Nat) : ℚ) := by
      have hexp : lastPlace n = ((n.log2 - 23 : Nat) : Int) := by
        rw [lastPlace, Int.log_natCast, ← Nat.log2_eq_log_two]
        omega
      rw [hexp, zpow_natCast, Nat.cast_pow, Nat.cast_ofNat]
    rw [roundRat_of_nonneg (Nat.cast_nonneg _), roundMagnitude, hplace,
      roundHalfEven_div n (Nat.two_pow_pos _), round, if_neg hsmall]
    dsimp only
    split
    · push_cast
      rfl
    · split
      · push_cast
        rfl
      · push_cast
        rfl

theorem round_mono : Monotone round := by
  intro m n h
  have hle : roundRat m ≤ roundRat n := roundRat_mono (by exact_mod_cast h)
  rw [roundRat_natCast, roundRat_natCast] at hle
  exact_mod_cast hle

theorem ofInt_mono {x y : Int} (h : x ≤ y) : ofInt x ≤ ofInt y := by
  unfold ofInt
  split
  · split
    · have hle : round y.natAbs ≤ round x.natAbs := round_mono (by omega)
      omega
    · omega
  · rw [if_neg (by omega)]
    have hle : round x.natAbs ≤ round y.natAbs := round_mono (by omega)
    omega

theorem round_round (n : Nat) : round (round n) = round n := by
  by_cases hsmall : n < 2 ^ 24
  · rw [round_of_lt hsmall, round_of_lt hsmall]
  · have hlog := le_log2_of_not_lt hsmall
    have hquotient : n / 2 ^ (n.log2 - 23) < 2 ^ 24 := by
      rw [Nat.div_lt_iff_lt_mul (Nat.two_pow_pos _), ← Nat.pow_add]
      exact (Nat.log2_lt (by omega)).mp (by omega)
    have hunits : ∃ m, m ≤ 2 ^ 24 ∧ round n = m * 2 ^ (n.log2 - 23) := by
      rw [round, if_neg hsmall]
      dsimp only
      split
      · exact ⟨_, hquotient.le, rfl⟩
      · split
        · exact ⟨_, hquotient, rfl⟩
        · exact ⟨_, by omega, rfl⟩
    obtain ⟨m, hm, hround⟩ := hunits
    have hexact : roundRat (round n) = round n := by
      rw [hround, Nat.cast_mul, Nat.cast_pow, Nat.cast_ofNat, ← zpow_natCast]
      rcases hm.lt_or_eq with hlt | heq
      · exact roundRat_exact hlt (by omega)
      · have hpower : ((m : Nat) : ℚ) * 2 ^ ((n.log2 - 23 : Nat) : Int) =
            ((1 : Nat) : ℚ) * 2 ^ (24 + ((n.log2 - 23 : Nat) : Int)) := by
          rw [two_zpow_add, heq]
          norm_num
        rw [hpower]
        exact roundRat_exact (by norm_num) (by omega)
    rw [roundRat_natCast] at hexact
    exact_mod_cast hexact

/-- A rounding moves a number by one part in `2 ^ 24` at most. -/
theorem round_error (n : Nat) :
    2 ^ 24 * n ≤ 2 ^ 24 * round n + n ∧ 2 ^ 24 * round n ≤ 2 ^ 24 * n + n := by
  by_cases hsmall : n < 2 ^ 24
  · rw [round_of_lt hsmall]
    omega
  · have hlog := le_log2_of_not_lt hsmall
    have hunit : 2 ^ 23 * 2 ^ (n.log2 - 23) ≤ n := by
      rw [← Nat.pow_add, Nat.add_sub_cancel' (by omega)]
      exact Nat.log2_self_le (by omega)
    have hdivision := Nat.div_add_mod' n (2 ^ (n.log2 - 23))
    have hremainder := Nat.mod_lt n (Nat.two_pow_pos (n.log2 - 23))
    have hparity := Nat.mod_two_eq_zero_or_one (n / 2 ^ (n.log2 - 23))
    rw [round, if_neg hsmall]
    dsimp only
    split
    · omega
    · split
      · rw [Nat.add_mul]
        omega
      · rcases hparity with heven | hodd
        · rw [heven, Nat.add_zero]
          omega
        · rw [hodd, Nat.add_mul]
          omega

def sumFrom (n : Nat) (xs : List Nat) : Nat := xs.foldl (fun total x => round (total + x)) n

theorem sumFrom_mono {xs ys : List Nat} (h : List.Forall₂ (· ≤ ·) xs ys) {m n : Nat}
    (hmn : m ≤ n) : sumFrom m xs ≤ sumFrom n ys := by
  induction h generalizing m n with
  | nil => exact hmn
  | cons hxy _ ih => exact ih (round_mono (Nat.add_le_add hmn hxy))

theorem sumFrom_exact {xs : List Nat} {n : Nat} (h : n + xs.sum < 2 ^ 24) :
    sumFrom n xs = n + xs.sum := by
  induction xs generalizing n with
  | nil => rfl
  | cons x xs ih =>
    rw [List.sum_cons, ← Nat.add_assoc] at h ⊢
    rw [sumFrom, List.foldl_cons, round_of_lt (by omega)]
    exact ih h

theorem sum_map_round_le (xs : List Nat) : (xs.map round).sum ≤ 2 * xs.sum := by
  induction xs with
  | nil => exact le_rfl
  | cons x xs ih =>
    have hround := round_le x
    rw [List.map_cons, List.sum_cons, List.sum_cons]
    omega

theorem sumFrom_le (n : Nat) (xs : List Nat) : sumFrom n xs ≤ 2 ^ xs.length * (n + xs.sum) := by
  induction xs generalizing n with
  | nil => simp [sumFrom]
  | cons x xs ih =>
    have hround := round_le (n + x)
    rw [List.length_cons, List.sum_cons, Nat.pow_succ, Nat.mul_assoc]
    apply (ih (round (n + x))).trans
    exact Nat.mul_le_mul_left _ (by omega)

/-- The part that a rounding can add or take away. -/
def unitRoundoff : ℚ := 1 / 2 ^ 24

theorem unitRoundoff_bounds : 0 < unitRoundoff ∧ unitRoundoff < 1 := by
  rw [unitRoundoff]
  norm_num

theorem roundRat_le_mul (h : 2 ^ (-126 : Int) ≤ q) : roundRat q ≤ (1 + unitRoundoff) * q := by
  have hpos : 0 < q := (two_zpow_pos _).trans_le h
  have hlog : -126 ≤ Int.log 2 q := (Int.zpow_le_iff_le_log (by norm_num) hpos).mp h
  have hself : (2 : ℚ) ^ Int.log 2 q ≤ q := (Int.zpow_le_iff_le_log (by norm_num) hpos).mpr le_rfl
  have hunit := two_zpow_pos (lastPlace q)
  have hplace : (2 : ℚ) ^ Int.log 2 q = 2 ^ (23 : Int) * 2 ^ lastPlace q := by
    rw [← two_zpow_add, lastPlace]
    congr 1
    omega
  have herror := (abs_le.mp (abs_roundHalfEven_sub_le (q / 2 ^ lastPlace q))).2
  have hmoved : roundMagnitude q ≤ q + 1 / 2 * 2 ^ lastPlace q := by
    have hunits : (roundHalfEven (q / 2 ^ lastPlace q) : ℚ) ≤ q / 2 ^ lastPlace q + 1 / 2 := by
      linarith
    have hscaled := mul_le_mul_of_nonneg_right hunits hunit.le
    rwa [add_mul, div_mul_cancel₀ _ hunit.ne'] at hscaled
  rw [hplace] at hself
  rw [roundRat_of_nonneg hpos.le, unitRoundoff]
  norm_num at hself
  linarith

theorem round_bounds (n : Nat) :
    (1 - unitRoundoff) * n ≤ round n ∧ (round n : ℚ) ≤ (1 + unitRoundoff) * n := by
  have h := round_error n
  have hlow : (2 ^ 24 * n : ℚ) ≤ 2 ^ 24 * round n + n := by exact_mod_cast h.1
  have hhigh : (2 ^ 24 * round n : ℚ) ≤ 2 ^ 24 * n + n := by exact_mod_cast h.2
  rw [unitRoundoff]
  constructor <;> linarith

theorem sumFrom_bounds (n : Nat) (xs : List Nat) :
    (1 - unitRoundoff) ^ xs.length * (n + xs.sum : Nat) ≤ sumFrom n xs ∧
      (sumFrom n xs : ℚ) ≤ (1 + unitRoundoff) ^ xs.length * (n + xs.sum : Nat) := by
  have hunit := unitRoundoff_bounds
  induction xs generalizing n with
  | nil => simp [sumFrom]
  | cons x xs ih =>
    have hround := round_bounds (n + x)
    have hrest := ih (round (n + x))
    have hsum : 0 ≤ unitRoundoff * xs.sum := mul_nonneg hunit.1.le (Nat.cast_nonneg _)
    have hfold : sumFrom n (x :: xs) = sumFrom (round (n + x)) xs := rfl
    rw [hfold, List.length_cons, List.sum_cons, ← Nat.add_assoc, pow_succ, pow_succ, mul_assoc,
      mul_assoc]
    rw [Nat.cast_add (round (n + x))] at hrest
    rw [Nat.cast_add (n + x)]
    constructor
    · apply le_trans _ hrest.1
      apply mul_le_mul_of_nonneg_left _ (pow_nonneg (by linarith) _)
      linarith
    · apply hrest.2.trans
      apply mul_le_mul_of_nonneg_left _ (pow_nonneg (by linarith) _)
      linarith

theorem sum_bounds (xs : List Nat) :
    (1 - unitRoundoff) ^ (xs.length + 1) * (xs.sum : Nat) ≤ sumFrom 0 (xs.map round) ∧
      (sumFrom 0 (xs.map round) : ℚ) ≤ (1 + unitRoundoff) ^ (xs.length + 1) * (xs.sum : Nat) := by
  have hunit := unitRoundoff_bounds
  have hconverted : (1 - unitRoundoff) * (xs.sum : Nat) ≤ ((xs.map round).sum : Nat) ∧
      (((xs.map round).sum : Nat) : ℚ) ≤ (1 + unitRoundoff) * (xs.sum : Nat) := by
    induction xs with
    | nil => simp
    | cons x xs ih =>
      have hround := round_bounds x
      rw [List.map_cons, List.sum_cons, List.sum_cons, Nat.cast_add, Nat.cast_add]
      constructor <;> linarith
  have hadded := sumFrom_bounds 0 (xs.map round)
  rw [List.length_map, Nat.zero_add] at hadded
  rw [pow_succ, pow_succ, mul_assoc, mul_assoc]
  constructor
  · apply le_trans _ hadded.1
    exact mul_le_mul_of_nonneg_left hconverted.1 (pow_nonneg (by linarith) _)
  · apply hadded.2.trans
    exact mul_le_mul_of_nonneg_left hconverted.2 (pow_nonneg (by linarith) _)

/-- The `float` for an exact result. -/
def toFloat : PyFloat → PyFloat
  | .finite q =>
    match nearest q with
    | some r => .finite r
    | none => if q < 0 then .negInf else .inf
  | x => x

def add (x y : PyFloat) : PyFloat := toFloat (x.add y)

def sub (x y : PyFloat) : PyFloat := toFloat (x.add y.neg)

def mul (x y : PyFloat) : PyFloat := toFloat (x.mul y)

/-- Division; a zero has no sign here and counts as positive. -/
def div : PyFloat → PyFloat → PyFloat
  | .finite a, .finite b =>
    if b = 0 then if a = 0 then .nan else if 0 < a then .inf else .negInf
    else toFloat (.finite (a / b))
  | .nan, _ | _, .nan => .nan
  | .finite _, _ => .finite 0
  | x, .finite b => if b < 0 then x.neg else x
  | _, _ => .nan

theorem toFloat_finite (h : |q| ≤ 2 ^ 127) : toFloat (.finite q) = .finite (roundRat q) := by
  have hround : ¬ (2 ^ 128 : ℚ) ≤ roundMagnitude |q| := by
    rw [not_le]
    by_cases hzero : q = 0
    · rw [hzero, abs_zero, roundMagnitude_zero]
      norm_num
    · have hle := roundMagnitude_le (e := 127) (abs_pos.mpr hzero) (by norm_num)
        (by rw [← zpow_natCast] at h; exact h)
      apply hle.trans_lt
      norm_num
  rw [toFloat, nearest_eq, if_neg hround]

theorem toFloat_natCast {n : Nat} (h : n ≤ 2 ^ 127) : toFloat (.finite n) = .finite (round n) := by
  have hle : |(n : ℚ)| ≤ 2 ^ 127 := by
    rw [abs_of_nonneg (Nat.cast_nonneg _)]
    exact_mod_cast h
  rw [toFloat_finite hle, roundRat_natCast]

theorem add_natCast {m n : Nat} (h : m + n ≤ 2 ^ 127) :
    add (.finite m) (.finite n) = .finite (round (m + n)) := by
  rw [add, PyFloat.add_finite, ← Nat.cast_add, toFloat_natCast h]

theorem sub_natCast {m n : Nat} (hle : n ≤ m) (h : m ≤ 2 ^ 127) :
    sub (.finite m) (.finite n) = .finite (round (m - n)) := by
  rw [sub, PyFloat.neg, PyFloat.add_finite, ← sub_eq_add_neg, ← Nat.cast_sub hle,
    toFloat_natCast ((Nat.sub_le ..).trans h)]

theorem foldl_add_natCast {xs : List Nat} {n : Nat} (h : 2 ^ xs.length * (n + xs.sum) ≤ 2 ^ 127) :
    (xs.map fun x : Nat => PyFloat.finite x).foldl add (.finite n) = .finite (sumFrom n xs) := by
  induction xs generalizing n with
  | nil => rfl
  | cons x xs ih =>
    rw [List.length_cons, List.sum_cons, Nat.pow_succ, Nat.mul_assoc] at h
    have hround := round_le (n + x)
    have hsmall : n + x ≤ 2 ^ 127 := by
      calc n + x ≤ 2 * (n + (x + xs.sum)) := by omega
        _ ≤ 2 ^ xs.length * (2 * (n + (x + xs.sum))) :=
          Nat.le_mul_of_pos_left _ (Nat.two_pow_pos _)
        _ ≤ 2 ^ 127 := h
    rw [List.map_cons, List.foldl_cons, add_natCast hsmall, ih]
    · rfl
    · exact (Nat.mul_le_mul_left _ (by omega)).trans h

end SinglePrecision

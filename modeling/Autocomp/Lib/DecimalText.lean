import Autocomp.Lib.TextStream
import Mathlib.Data.List.DropRight

/-!
# Decimal numerals

The text of an unsigned numeral with a point and an exponent, how it is scanned, and the numeral that
an output stream makes of a number with its default precision of six significant digits.
-/

open ByteMemory TextStream TextStream.IStream SinglePrecision

/-- The digits before the point, those after it, and an exponent with its sign. -/
structure Numeral where
  whole : List Byte
  fraction : List Byte
  exponent : Option (Bool × List Byte)
  deriving DecidableEq

namespace Numeral

def exponentText : Option (Bool × List Byte) → List Byte
  | none => []
  | some (negative, digits) => 101 :: (if negative then 45 else 43) :: digits

/-- There is no point without a digit after it. -/
def pointText (fraction : List Byte) : List Byte := if fraction = [] then [] else 46 :: fraction

def text (n : Numeral) : List Byte := n.whole ++ (pointText n.fraction ++ exponentText n.exponent)

/-- The numeral at the start of a text, and what follows it. -/
def scan (text : List Byte) : Option (Numeral × List Byte) :=
  let whole := text.takeWhile isDigit
  let (fraction, rest) := takeFraction (text.dropWhile isDigit)
  let (exponent, rest) := takeExponent rest
  if whole ++ fraction = [] ∨ exponent.map Prod.snd = some [] then none
  else some (⟨whole, fraction, exponent⟩, rest)

def value (n : Numeral) : ℚ :=
  let mantissa : ℚ := decimalValue (n.whole ++ n.fraction) / 10 ^ n.fraction.length
  match n.exponent with
  | none => mantissa
  | some (negative, digits) =>
    if negative then mantissa / 10 ^ decimalValue digits else mantissa * 10 ^ decimalValue digits

/-- All of it is digits, and there are some where they cannot be left out. -/
structure WellFormed (n : Numeral) : Prop where
  whole_ne : n.whole ≠ []
  whole : ∀ c ∈ n.whole, isDigit c = true
  fraction : ∀ c ∈ n.fraction, isDigit c = true
  exponent_ne : ∀ negative digits, n.exponent = some (negative, digits) → digits ≠ []
  exponent : ∀ negative digits, n.exponent = some (negative, digits) →
    ∀ c ∈ digits, isDigit c = true

theorem takeWhile_all {p : Byte → Bool} {xs : List Byte} (h : ∀ c ∈ xs, p c = true) :
    xs.takeWhile p = xs ∧ xs.dropWhile p = [] :=
  ⟨List.takeWhile_eq_self_iff.mpr h, List.dropWhile_eq_nil_iff.mpr h⟩

theorem takeWhile_digits {xs rest : List Byte} (h : ∀ c ∈ xs, isDigit c = true)
    (hrest : ∀ c ∈ rest.head?, isDigit c = false) :
    (xs ++ rest).takeWhile isDigit = xs ∧ (xs ++ rest).dropWhile isDigit = rest := by
  cases rest with
  | nil =>
    rw [List.append_nil]
    exact takeWhile_all h
  | cons c rest => exact takeWhile_append_stop h (hrest c rfl) rest

theorem exponentText_head (exponent : Option (Bool × List Byte)) :
    ∀ c ∈ (exponentText exponent).head?, c = 101 := by
  cases exponent with
  | none => simp [exponentText]
  | some exponent => simp [exponentText]

theorem takeExponent_text {exponent : Option (Bool × List Byte)}
    (h : ∀ negative digits, exponent = some (negative, digits) → ∀ c ∈ digits, isDigit c = true) :
    takeExponent (exponentText exponent) = (exponent, []) := by
  cases exponent with
  | none => rfl
  | some exponent =>
    obtain ⟨negative, digits⟩ := exponent
    obtain ⟨htake, hdrop⟩ := takeWhile_all (h negative digits rfl)
    cases negative <;> simp [exponentText, takeExponent, takeSign, htake, hdrop]

theorem takeFraction_text {fraction rest : List Byte} (h : ∀ c ∈ fraction, isDigit c = true)
    (hrest : ∀ c ∈ rest.head?, c = 101) :
    takeFraction (pointText fraction ++ rest) = (fraction, rest) := by
  unfold pointText
  split
  · rename_i hnone
    cases rest with
    | nil => simp [takeFraction, hnone]
    | cons c rest =>
      have hc : c = 101 := hrest c rfl
      simp [takeFraction, hnone, hc]
  · have hnext : ∀ c ∈ rest.head?, isDigit c = false := by
      intro c hc
      rw [hrest c hc]
      decide
    obtain ⟨htake, hdrop⟩ := takeWhile_digits h hnext
    simp [takeFraction, htake, hdrop]

/-- A numeral is read back. -/
theorem scan_text {n : Numeral} (h : n.WellFormed) : scan n.text = some (n, []) := by
  have hexponent := exponentText_head n.exponent
  have hrest : ∀ c ∈ (pointText n.fraction ++ exponentText n.exponent).head?,
      isDigit c = false := by
    intro c hc
    unfold pointText at hc
    split at hc
    · rw [hexponent c hc]
      decide
    · obtain rfl : 46 = c := Option.some.inj hc
      decide
  obtain ⟨htake, hdrop⟩ := takeWhile_digits h.whole hrest
  simp only [scan, text, htake, hdrop, takeFraction_text h.fraction hexponent,
    takeExponent_text h.exponent]
  rw [if_neg]
  rintro (hnone | hnone)
  · exact h.whole_ne (List.append_eq_nil_iff.mp hnone).1
  · obtain ⟨⟨negative, digits⟩, hsome, rfl⟩ := Option.map_eq_some_iff.mp hnone
    exact h.exponent_ne negative [] hsome rfl

theorem decimalValue_append_zeros (digits : List Byte) (k : Nat) :
    decimalValue (digits ++ List.replicate k 48) = decimalValue digits * 10 ^ k := by
  induction k with
  | zero => simp
  | succ k ih =>
    rw [List.replicate_succ', ← List.append_assoc, decimalValue_append, ih]
    change 10 * (decimalValue digits * 10 ^ k) + 0 = _
    ring

theorem decimalValue_zeros_append (k : Nat) (digits : List Byte) :
    decimalValue (List.replicate k 48 ++ digits) = decimalValue digits := by
  induction k with
  | zero => rfl
  | succ k ih => exact ih

def strip (digits : List Byte) : List Byte := digits.rdropWhile (· = 48)

theorem exists_strip (digits : List Byte) : ∃ k, digits = strip digits ++ List.replicate k 48 := by
  induction digits using List.reverseRecOn with
  | nil => exact ⟨0, rfl⟩
  | append_singleton digits c ih =>
    by_cases hc : c = 48
    · obtain ⟨k, hk⟩ := ih
      refine ⟨k + 1, ?_⟩
      have hdrop : strip (digits ++ [c]) = strip digits :=
        List.rdropWhile_concat_pos _ _ _ (by simp [hc])
      rw [hdrop, List.replicate_succ', ← List.append_assoc, ← hk, hc]
    · refine ⟨0, ?_⟩
      have hkeep : strip (digits ++ [c]) = digits ++ [c] :=
        List.rdropWhile_concat_neg _ _ _ (by simpa using hc)
      rw [hkeep, List.replicate_zero, List.append_nil]

theorem strip_isDigit {digits : List Byte} (h : ∀ c ∈ digits, isDigit c = true) :
    ∀ c ∈ strip digits, isDigit c = true :=
  fun c hc => h c ((List.rdropWhile_prefix _ _).subset hc)

theorem value_strip (whole fraction : List Byte) :
    (decimalValue (whole ++ strip fraction) : ℚ) / 10 ^ (strip fraction).length =
      decimalValue (whole ++ fraction) / 10 ^ fraction.length := by
  obtain ⟨k, hk⟩ := exists_strip fraction
  have hvalue : decimalValue (whole ++ fraction) = decimalValue (whole ++ strip fraction) * 10 ^ k := by
    conv_lhs => rw [hk]
    rw [← List.append_assoc, decimalValue_append_zeros]
  have hlength : fraction.length = (strip fraction).length + k := by
    conv_lhs => rw [hk]
    rw [List.length_append, List.length_replicate]
  rw [hvalue, hlength, pow_add]
  push_cast
  rw [mul_div_mul_right _ _ (by positivity)]

theorem decimal_length {n k : Nat} (hlow : 10 ^ k ≤ n) (hhigh : n < 10 ^ (k + 1)) :
    (decimal n).length = k + 1 := by
  induction k generalizing n with
  | zero =>
    rw [decimal, if_pos (by omega)]
    rfl
  | succ k ih =>
    rw [pow_succ] at hlow hhigh
    have hpow : 0 < 10 ^ k := by positivity
    rw [decimal, if_neg (by omega), List.length_append, ih (by omega) (by omega)]
    rfl

end Numeral

/-- A positive number rounded to six significant digits: the digits, and the power of ten of the first
one. -/
def sixDigits (q : ℚ) : Nat × Int :=
  let exponent := Int.log 10 q
  let digits := (roundHalfEven (q / 10 ^ (exponent - 5))).toNat
  if digits = 10 ^ 6 then (10 ^ 5, exponent + 1) else (digits, exponent)

/-- The number that is left. -/
def rounded (q : ℚ) : ℚ := (sixDigits q).1 * 10 ^ ((sixDigits q).2 - 5)

theorem unit_eq (exponent : Int) : (10 : ℚ) ^ (exponent - 5) = 10 ^ exponent / 10 ^ 5 := by
  rw [zpow_sub₀ (by norm_num)]
  norm_num

theorem roundHalfEven_scaled {q : ℚ} (h : 0 < q) :
    10 ^ 5 ≤ (roundHalfEven (q / 10 ^ (Int.log 10 q - 5))).toNat ∧
      (roundHalfEven (q / 10 ^ (Int.log 10 q - 5))).toNat ≤ 10 ^ 6 := by
  have hunit : (0 : ℚ) < 10 ^ (Int.log 10 q - 5) := zpow_pos (by norm_num) _
  have hfirst : (10 : ℚ) ^ Int.log 10 q ≤ q := Int.zpow_log_le_self (by norm_num) h
  have hnext : q < (10 : ℚ) ^ (Int.log 10 q + 1) := Int.lt_zpow_succ_log_self (by norm_num) q
  have hlow : ((10 ^ 5 : Int) : ℚ) ≤ q / 10 ^ (Int.log 10 q - 5) := by
    rw [le_div_iff₀ hunit, unit_eq]
    push_cast
    linarith
  have hhigh : q / 10 ^ (Int.log 10 q - 5) < ((10 ^ 6 : Int) : ℚ) := by
    rw [zpow_add_one₀ (by norm_num)] at hnext
    rw [div_lt_iff₀ hunit, unit_eq]
    push_cast
    linarith
  have hmem := roundHalfEven_mem hlow hhigh
  omega

theorem sixDigits_bounds {q : ℚ} (h : 0 < q) :
    10 ^ 5 ≤ (sixDigits q).1 ∧ (sixDigits q).1 < 10 ^ 6 := by
  have hdigits := roundHalfEven_scaled h
  unfold sixDigits
  dsimp only
  split
  · norm_num
  · omega

/-- The carry into a seventh digit keeps the value. -/
theorem rounded_eq (q : ℚ) : rounded q =
    (roundHalfEven (q / 10 ^ (Int.log 10 q - 5))).toNat * 10 ^ (Int.log 10 q - 5) := by
  unfold rounded sixDigits
  dsimp only
  split
  · rename_i hcarry
    rw [hcarry, unit_eq, unit_eq, zpow_add_one₀ (by norm_num)]
    push_cast
    ring
  · rfl

theorem rounded_pos {q : ℚ} (h : 0 < q) : 0 < rounded q := by
  have hdigits : 0 < (sixDigits q).1 := by
    have hlow := (sixDigits_bounds h).1
    omega
  have hunit : (0 : ℚ) < 10 ^ ((sixDigits q).2 - 5) := zpow_pos (by norm_num) _
  unfold rounded
  positivity

theorem rounded_le_one {q : ℚ} (hpos : 0 < q) (h : q ≤ 1) : rounded q ≤ 1 := by
  rw [rounded_eq]
  rcases h.lt_or_eq with hlt | rfl
  · have hlog : Int.log 10 q < 0 := by
      rw [← Int.lt_zpow_iff_log_lt (by norm_num) hpos]
      simpa using hlt
    have hdigits : ((roundHalfEven (q / 10 ^ (Int.log 10 q - 5))).toNat : ℚ) ≤ 10 ^ 6 := by
      exact_mod_cast (roundHalfEven_scaled hpos).2
    calc _ ≤ 10 ^ 6 * (10 : ℚ) ^ (Int.log 10 q - 5) :=
          mul_le_mul_of_nonneg_right hdigits (zpow_nonneg (by norm_num) _)
      _ = 10 ^ (Int.log 10 q + 1) := by
          rw [unit_eq, zpow_add_one₀ (by norm_num)]
          ring
      _ ≤ 10 ^ (0 : Int) := zpow_le_zpow_right₀ (by norm_num) (by omega)
      _ = 1 := zpow_zero _
  · have hround : roundHalfEven ((10 ^ 5 : Nat) : ℚ) = (10 ^ 5 : Nat) := roundHalfEven_natCast _
    have hscaled : (1 : ℚ) / 10 ^ ((0 : Int) - 5) = ((10 ^ 5 : Nat) : ℚ) := by
      rw [unit_eq]
      norm_num
    rw [Int.log_one_right, hscaled, hround, Int.toNat_natCast, unit_eq]
    norm_num

/-- An exponent has two digits at least. -/
def exponentDigits (exponent : Int) : List Byte :=
  if exponent.natAbs < 10 then 48 :: decimal exponent.natAbs else decimal exponent.natAbs

/-- What `<<` makes of a positive number: six significant digits without the zeros at the end, with an
exponent if the first of them is far from the point. -/
def numeral (q : ℚ) : Numeral :=
  let digits := decimal (sixDigits q).1
  let exponent := (sixDigits q).2
  if exponent < -4 ∨ 6 ≤ exponent then
    ⟨digits.take 1, Numeral.strip (digits.drop 1),
      some (decide (exponent < 0), exponentDigits exponent)⟩
  else if exponent < 0 then
    ⟨[48], Numeral.strip (List.replicate (-exponent - 1).toNat 48 ++ digits), none⟩
  else
    ⟨digits.take (exponent + 1).toNat, Numeral.strip (digits.drop (exponent + 1).toNat), none⟩

theorem exponentDigits_facts (exponent : Int) : exponentDigits exponent ≠ [] ∧
    (∀ c ∈ exponentDigits exponent, isDigit c = true) ∧
    decimalValue (exponentDigits exponent) = exponent.natAbs := by
  have hdigits := decimal_isDigit exponent.natAbs
  have hvalue := decimalValue_decimal exponent.natAbs
  unfold exponentDigits
  split
  · refine ⟨List.cons_ne_nil _ _, ?_, hvalue⟩
    intro c hc
    rcases List.mem_cons.mp hc with rfl | hc
    · decide
    · exact hdigits c hc
  · exact ⟨decimal_ne_nil _, hdigits, hvalue⟩

section

variable {q : ℚ}

theorem digits_length (h : 0 < q) : (decimal (sixDigits q).1).length = 6 :=
  Numeral.decimal_length (sixDigits_bounds h).1 (sixDigits_bounds h).2

theorem numeral_wellFormed (h : 0 < q) : (numeral q).WellFormed := by
  have hlength := digits_length h
  have hdigits := decimal_isDigit (sixDigits q).1
  obtain ⟨hne, hexponent, -⟩ := exponentDigits_facts (sixDigits q).2
  have htake : ∀ n, ∀ c ∈ (decimal (sixDigits q).1).take n, isDigit c = true :=
    fun n c hc => hdigits c (List.mem_of_mem_take hc)
  have hdrop : ∀ n, ∀ c ∈ Numeral.strip ((decimal (sixDigits q).1).drop n), isDigit c = true :=
    fun n => Numeral.strip_isDigit fun c hc => hdigits c (List.mem_of_mem_drop hc)
  have hfirst : ∀ n, 0 < n → (decimal (sixDigits q).1).take n ≠ [] := by
    intro n hn hnone
    have hzero := congrArg List.length hnone
    rw [List.length_take, hlength, List.length_nil] at hzero
    omega
  unfold numeral
  dsimp only
  split
  · refine ⟨hfirst 1 (by omega), htake 1, hdrop 1, ?_, ?_⟩
    · rintro negative digits ⟨⟩
      exact hne
    · rintro negative digits ⟨⟩
      exact hexponent
  · split
    · refine ⟨List.cons_ne_nil _ _, ?_, Numeral.strip_isDigit ?_, by simp, by simp⟩
      · intro c hc
        rw [List.mem_singleton.mp hc]
        decide
      · intro c hc
        rcases List.mem_append.mp hc with hc | hc
        · rw [List.eq_of_mem_replicate hc]
          decide
        · exact hdigits c hc
    · exact ⟨hfirst _ (by omega), htake _, hdrop _, by simp, by simp⟩

theorem div_pow_eq (x : ℚ) {k : Nat} {exponent : Int} (h : exponent = -k) :
    x / 10 ^ k = x * 10 ^ exponent := by
  rw [h, zpow_neg, zpow_natCast, div_eq_mul_inv]

theorem value_fixed {whole fraction : List Byte} {m : Nat} {exponent : Int}
    (hvalue : decimalValue (whole ++ fraction) = m) (hlength : exponent = -fraction.length) :
    Numeral.value ⟨whole, Numeral.strip fraction, none⟩ = m * 10 ^ exponent := by
  have hstrip := Numeral.value_strip whole fraction
  rw [hvalue, div_pow_eq (m : ℚ) hlength] at hstrip
  exact hstrip

/-- The numeral stands for the rounded number. -/
theorem numeral_value (h : 0 < q) : (numeral q).value = rounded q := by
  have hlength := digits_length h
  have hvalue := decimalValue_decimal (sixDigits q).1
  have hexponent := (exponentDigits_facts (sixDigits q).2).2.2
  unfold numeral rounded
  dsimp only
  set digits := decimal (sixDigits q).1
  set exponent := (sixDigits q).2
  split
  · have hdrop : (-5 : Int) = -(digits.drop 1).length := by
      rw [List.length_drop, hlength]
      rfl
    have hmantissa :=
      value_fixed ((congrArg decimalValue (List.take_append_drop 1 digits)).trans hvalue) hdrop
    change (if decide (exponent < 0) = true
      then Numeral.value ⟨digits.take 1, Numeral.strip (digits.drop 1), none⟩ /
        10 ^ decimalValue (exponentDigits exponent)
      else Numeral.value ⟨digits.take 1, Numeral.strip (digits.drop 1), none⟩ *
        10 ^ decimalValue (exponentDigits exponent)) = _
    rw [hmantissa, hexponent, sub_eq_add_neg, zpow_add₀ (by norm_num)]
    by_cases hneg : exponent < 0
    · rw [if_pos (by simpa using hneg),
        div_pow_eq _ (show exponent = -(exponent.natAbs : Int) by omega)]
      ring
    · have hpow : (10 : ℚ) ^ exponent.natAbs = 10 ^ exponent := by
        rw [← zpow_natCast]
        congr 1
        omega
      rw [if_neg (by simpa using hneg), hpow]
      ring
  · split
    · apply value_fixed
      · rw [← List.append_assoc]
        exact (Numeral.decimalValue_zeros_append (_ + 1) digits).trans hvalue
      · rw [List.length_append, List.length_replicate, hlength]
        omega
    · apply value_fixed
      · rw [List.take_append_drop]
        exact hvalue
      · rw [List.length_drop, hlength]
        omega

end

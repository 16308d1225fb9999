import Autocomp.Lib.DecimalText
import Autocomp.Lib.Truncation

/-!
# Python numbers

The values of a `float`, the finite ones exact, and the conversions `float` and `int` of ASCII texts
and `int` of a `float`. An output stream of C++ writes such a number with six significant digits,
which `float` reads back.
-/

open ByteMemory TextStream MachineInt

inductive PyError where
  | indexError
  | valueError
  | overflowError
  deriving DecidableEq

inductive PyFloat where
  | finite (q : ℚ)
  | inf
  | negInf
  | nan
  deriving DecidableEq

namespace PyFloat

def sign : PyFloat → Int
  | finite q => if 0 < q then 1 else if q < 0 then -1 else 0
  | inf => 1
  | negInf => -1
  | nan => 0

def mul : PyFloat → PyFloat → PyFloat
  | finite a, finite b => finite (a * b)
  | nan, _ | _, nan => nan
  | a, b => if 0 < a.sign * b.sign then inf else if a.sign * b.sign < 0 then negInf else nan

def add : PyFloat → PyFloat → PyFloat
  | finite a, finite b => finite (a + b)
  | nan, _ | _, nan | inf, negInf | negInf, inf => nan
  | inf, _ | _, inf => inf
  | negInf, _ | _, negInf => negInf

/-- Division by a positive integer. -/
def div (x : PyFloat) (n : Nat) : PyFloat :=
  match x with
  | finite q => finite (q / n)
  | x => x

/-- `<`; nothing is less or greater than a NaN. -/
def lt : PyFloat → PyFloat → Bool
  | nan, _ | _, nan => false
  | finite a, finite b => a < b
  | negInf, y => y ≠ negInf
  | x, inf => x ≠ inf
  | _, _ => false

def min (x y : PyFloat) : PyFloat := if y.lt x then y else x

/-- `int(x)` -/
def toInt : PyFloat → Except PyError Int
  | finite q => .ok (truncate q)
  | inf | negInf => .error .overflowError
  | nan => .error .valueError

@[simp] theorem mul_finite (a b : ℚ) : (finite a).mul (finite b) = finite (a * b) := rfl

@[simp] theorem add_finite (a b : ℚ) : (finite a).add (finite b) = finite (a + b) := rfl

@[simp] theorem div_finite (a : ℚ) (n : Nat) : (finite a).div n = finite (a / n) := rfl

@[simp] theorem lt_finite (a b : ℚ) : lt (finite a) (finite b) = decide (a < b) := rfl

theorem lt_irrefl (x : PyFloat) : x.lt x = false := by
  cases x <;> simp [lt]

theorem lt_trans {x y z : PyFloat} (h : x.lt y = true) (h' : y.lt z = true) : x.lt z = true := by
  cases x <;> cases y <;> cases z <;> simp_all [lt]
  exact h.trans h'

def isPySpace (c : Byte) : Bool := isSpace c || (28 ≤ c.toNat && c.toNat ≤ 31)

def stripSpaces (text : List Byte) : List Byte := (text.dropWhile isPySpace).rdropWhile isPySpace

def toLower (c : Byte) : Byte := if 65 ≤ c.toNat ∧ c.toNat ≤ 90 then c + 32 else c

/-- Underscores are left out between digits and allowed nowhere else. -/
def dropUnderscores (previous : Byte) : List Byte → Option (List Byte)
  | [] => if previous = 95 then none else some []
  | c :: rest =>
    if c = 95 then if isDigit previous then dropUnderscores c rest else none
    else if previous = 95 ∧ isDigit c = false then none
    else (dropUnderscores c rest).map (c :: ·)

def magnitude (text : List Byte) : Option PyFloat :=
  let word := text.map toLower
  if word = [105, 110, 102] ∨ word = [105, 110, 102, 105, 110, 105, 116, 121] then some .inf
  else if word = [110, 97, 110] then some .nan
  else
    match Numeral.scan text with
    | some (numeral, []) => some (.finite numeral.value)
    | _ => none

def neg : PyFloat → PyFloat
  | finite q => finite (-q)
  | inf => negInf
  | negInf => inf
  | nan => nan

def float (text : List Byte) : Except PyError PyFloat :=
  match dropUnderscores 0 (stripSpaces text) with
  | none => .error .valueError
  | some text =>
    let (negative, text) := takeSign text
    match magnitude text with
    | none => .error .valueError
    | some x => .ok (if negative then x.neg else x)

def int (text : List Byte) : Except PyError Int :=
  match dropUnderscores 0 (stripSpaces text) with
  | none => .error .valueError
  | some text =>
    let (negative, digits) := takeSign text
    if digits = [] ∨ ¬ digits.all isDigit then .error .valueError
    else .ok (if negative then -decimalValue digits else decimalValue digits)

def text : PyFloat → List Byte
  | finite q =>
    if q = 0 then [48] else if q < 0 then 45 :: (numeral (-q)).text else (numeral q).text
  | inf => [105, 110, 102]
  | negInf => [45, 105, 110, 102]
  | nan => [110, 97, 110]

/-- What is left of a number that has been written. -/
def printed : PyFloat → PyFloat
  | finite q =>
    finite (if q = 0 then 0 else if q < 0 then -rounded (-q) else rounded q)
  | x => x

/-- The characters of a number that has been written. -/
def numberChars : List Byte :=
  [48, 49, 50, 51, 52, 53, 54, 55, 56, 57, 43, 45, 46, 101, 105, 110, 102, 97]

theorem mem_of_isDigit {c : Byte} (h : isDigit c = true) : c ∈ numberChars := by
  have hc : BitVec.ofNat 8 c.toNat = c := by simp
  rw [isDigit, Bool.and_eq_true, decide_eq_true_iff, decide_eq_true_iff] at h
  obtain ⟨hlow, hhigh⟩ := h
  rw [← hc]
  generalize c.toNat = n at hlow hhigh
  interval_cases n <;> decide

theorem intText_mem (x : Int) : ∀ c ∈ intText x, c ∈ numberChars := by
  have hdigits : ∀ c ∈ decimal x.natAbs, c ∈ numberChars :=
    fun c hc => mem_of_isDigit (decimal_isDigit x.natAbs c hc)
  unfold intText
  split
  · intro c hc
    rcases List.mem_cons.mp hc with rfl | hc
    · decide
    · exact hdigits c hc
  · exact hdigits

theorem numeral_mem {n : Numeral} (h : n.WellFormed) : ∀ c ∈ n.text, c ∈ numberChars := by
  intro c hc
  rcases List.mem_append.mp hc with hc | hc
  · exact mem_of_isDigit (h.whole c hc)
  rcases List.mem_append.mp hc with hc | hc
  · unfold Numeral.pointText at hc
    split at hc
    · exact absurd hc (List.not_mem_nil)
    · rcases List.mem_cons.mp hc with rfl | hc
      · decide
      · exact mem_of_isDigit (h.fraction c hc)
  · cases hexponent : n.exponent with
    | none => simp [hexponent, Numeral.exponentText] at hc
    | some exponent =>
      obtain ⟨negative, digits⟩ := exponent
      rw [hexponent, Numeral.exponentText, List.mem_cons, List.mem_cons] at hc
      rcases hc with rfl | rfl | hc
      · decide
      · cases negative <;> decide
      · exact mem_of_isDigit (h.exponent negative digits hexponent c hc)

theorem text_mem (x : PyFloat) : ∀ c ∈ x.text, c ∈ numberChars := by
  cases x with
  | inf | negInf | nan => decide
  | finite q =>
    rcases lt_trichotomy q 0 with hneg | rfl | hpos
    · have hwf := numeral_wellFormed (neg_pos.mpr hneg)
      simp only [text, if_neg hneg.ne, if_pos hneg]
      intro c hc
      rcases List.mem_cons.mp hc with rfl | hc
      · decide
      · exact numeral_mem hwf c hc
    · decide
    · have hwf := numeral_wellFormed hpos
      simp only [text, if_neg hpos.ne', if_neg hpos.not_gt]
      exact numeral_mem hwf

theorem numberChars_plain : ∀ c ∈ numberChars,
    isPySpace c = false ∧ c ≠ 95 ∧ c ≠ 44 ∧ c ≠ 10 := by
  decide

theorem dropUnderscores_plain {text : List Byte} (h : ∀ c ∈ text, c ∈ numberChars)
    {previous : Byte} (hprevious : previous ≠ 95) : dropUnderscores previous text = some text := by
  induction text generalizing previous with
  | nil => rw [dropUnderscores, if_neg hprevious]
  | cons c rest ih =>
    have hc := (numberChars_plain c (h c (List.mem_cons_self ..))).2.1
    rw [dropUnderscores, if_neg hc, if_neg (fun hboth => hprevious hboth.1),
      ih (fun d hd => h d (List.mem_cons_of_mem _ hd)) hc, Option.map_some]

theorem stripSpaces_plain {text : List Byte} (h : ∀ c ∈ text, c ∈ numberChars) :
    stripSpaces text = text := by
  have hdrop : text.dropWhile isPySpace = text := by
    cases text with
    | nil => rfl
    | cons c rest =>
      have hc := (numberChars_plain c (h c (List.mem_cons_self ..))).1
      exact List.dropWhile_cons_of_neg (by simp [hc])
  rw [stripSpaces, hdrop, List.rdropWhile_eq_self_iff]
  intro hne
  have hlast := (numberChars_plain _ (h _ (List.getLast_mem hne))).1
  simp [hlast]

theorem magnitude_numeral {n : Numeral} (h : n.WellFormed) :
    magnitude n.text = some (.finite n.value) := by
  obtain ⟨c, rest, hwhole⟩ := List.exists_cons_of_ne_nil h.whole_ne
  have hc := h.whole c (by simp [hwhole])
  have hlower : toLower c = c := by
    rw [isDigit, Bool.and_eq_true, decide_eq_true_iff, decide_eq_true_iff] at hc
    rw [toLower, if_neg (by omega)]
  have hword : ∀ d others, isDigit d = false → n.text.map toLower ≠ d :: others := by
    intro d others hd heq
    rw [Numeral.text, hwhole, List.cons_append, List.map_cons, hlower] at heq
    rw [(List.cons.inj heq).1, hd] at hc
    contradiction
  simp only [magnitude, hword _ _ (show isDigit 105 = false by decide),
    hword _ _ (show isDigit 110 = false by decide), or_self, if_false, Numeral.scan_text h]

theorem takeSign_numeral {n : Numeral} (h : n.WellFormed) : takeSign n.text = (false, n.text) := by
  obtain ⟨c, rest, hwhole⟩ := List.exists_cons_of_ne_nil h.whole_ne
  have hc := isDigit_facts (h.whole c (by simp [hwhole]))
  rw [Numeral.text, hwhole, List.cons_append, takeSign, if_neg hc.1, if_neg hc.2.1]

/-- `float` reads back what an output stream writes. -/
theorem float_text (x : PyFloat) : float x.text = .ok x.printed := by
  have hmem := text_mem x
  rw [float, stripSpaces_plain hmem, dropUnderscores_plain hmem (by decide)]
  cases x with
  | inf | negInf | nan => decide +kernel
  | finite q =>
    rcases lt_trichotomy q 0 with hneg | rfl | hpos
    · have hwf := numeral_wellFormed (neg_pos.mpr hneg)
      have hvalue := numeral_value (neg_pos.mpr hneg)
      simp only [text, printed, if_neg hneg.ne, if_pos hneg, takeSign, if_true, magnitude_numeral hwf,
        hvalue, neg]
    · decide +kernel
    · have hwf := numeral_wellFormed hpos
      have hvalue := numeral_value hpos
      simp only [text, printed, if_neg hpos.ne', if_neg hpos.not_gt, takeSign_numeral hwf,
        magnitude_numeral hwf, hvalue, Bool.false_eq_true, if_false]

theorem int_intText (x : Int) : int (intText x) = .ok x := by
  have hmem := intText_mem x
  have hsign := takeSign_intText x []
  rw [List.append_nil, List.append_nil] at hsign
  have hdigits : (decimal x.natAbs).all isDigit = true :=
    List.all_eq_true.mpr (decimal_isDigit x.natAbs)
  rw [int, stripSpaces_plain hmem, dropUnderscores_plain hmem (by decide)]
  simp only [hsign, hdigits, decimal_ne_nil, not_true, or_self, if_false, decimalValue_decimal]
  rw [signed_natAbs]

theorem float_intText (x : Int) : float (intText x) = .ok (.finite x) := by
  have hmem := intText_mem x
  have hsign := takeSign_intText x []
  rw [List.append_nil, List.append_nil] at hsign
  have hwf : Numeral.WellFormed ⟨decimal x.natAbs, [], none⟩ :=
    ⟨decimal_ne_nil _, decimal_isDigit _, by simp, by simp, by simp⟩
  have htext : Numeral.text ⟨decimal x.natAbs, [], none⟩ = decimal x.natAbs := by
    simp [Numeral.text, Numeral.pointText, Numeral.exponentText]
  have hmagnitude := magnitude_numeral hwf
  have hvalue : Numeral.value ⟨decimal x.natAbs, [], none⟩ = x.natAbs := by
    simp [Numeral.value, decimalValue_decimal]
  rw [htext, hvalue] at hmagnitude
  have hsigned := congrArg (fun x : Int => (x : ℚ)) (signed_natAbs x)
  rw [float, stripSpaces_plain hmem, dropUnderscores_plain hmem (by decide)]
  simp only [hsign, hmagnitude, neg]
  rw [← hsigned]
  split <;> simp

end PyFloat

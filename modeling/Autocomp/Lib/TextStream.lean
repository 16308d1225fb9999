import Autocomp.Lib.ByteMemory
import Autocomp.Lib.SinglePrecision

/-!
# Text streams

An input stream over a text in the classic locale: the extraction of integers, floating-point numbers
and words, of lines and of ignored characters. A reading that meets the end of the text sets one bit,
one that finds nothing to read or a number out of range the other; once a bit is set, nothing more is
read.
-/

namespace TextStream

open ByteMemory

structure IStream where
  rest : List Byte
  eof : Bool
  fail : Bool
  deriving DecidableEq

def isSpace (c : Byte) : Bool := c = 32 || (9 ≤ c.toNat && c.toNat ≤ 13)

def isDigit (c : Byte) : Bool := 48 ≤ c.toNat && c.toNat ≤ 57

/-- The value of a string of digits. -/
def decimalValue (digits : List Byte) : Nat :=
  digits.foldl (fun value c => 10 * value + (c.toNat - 48)) 0

/-- An optional sign: whether it is a minus, and what follows. -/
def takeSign : List Byte → Bool × List Byte
  | [] => (false, [])
  | c :: rest =>
    if c = 45 then (true, rest)
    else if c = 43 then (false, rest)
    else (false, c :: rest)

namespace IStream

def ofText (text : List Byte) : IStream := ⟨text, false, false⟩

def good (s : IStream) : Bool := !s.eof && !s.fail

/-- What precedes every formatted extraction: white space is skipped. -/
def sentry (s : IStream) : IStream :=
  if s.good then
    let rest := s.rest.dropWhile isSpace
    ⟨rest, rest.isEmpty, rest.isEmpty⟩
  else { s with fail := true }

/-- The stream after an extraction that stops before `rest`. -/
def after (rest : List Byte) : IStream := ⟨rest, rest.isEmpty, false⟩

def failed (s : IStream) : IStream := { s with fail := true }

def readInt (s : IStream) : Int × IStream :=
  let s := s.sentry
  if s.good = false then (0, s)
  else
    let (negative, text) := takeSign s.rest
    let digits := text.takeWhile isDigit
    let s := after (text.dropWhile isDigit)
    let value : Int := if negative then -decimalValue digits else decimalValue digits
    if digits = [] then (0, s.failed)
    else if value < -2 ^ 31 then (-2 ^ 31, s.failed)
    else if 2 ^ 31 ≤ value then (2 ^ 31 - 1, s.failed)
    else (value, s)

/-- Extraction of an unsigned integer. A minus sign is taken modulo `2 ^ width`. -/
def readUnsigned (width : Nat) (s : IStream) : Nat × IStream :=
  let s := s.sentry
  if s.good = false then (0, s)
  else
    let (negative, text) := takeSign s.rest
    let digits := text.takeWhile isDigit
    let s := after (text.dropWhile isDigit)
    let value := decimalValue digits
    if digits = [] then (0, s.failed)
    else if 2 ^ width ≤ value then (2 ^ width - 1, s.failed)
    else (if negative then (2 ^ width - value) % 2 ^ width else value, s)

def readWord (s : IStream) : List Byte × IStream :=
  let s := s.sentry
  if s.good = false then ([], s)
  else (s.rest.takeWhile fun c => !isSpace c, after (s.rest.dropWhile fun c => !isSpace c))

/-- The exponent of a number, if there is one: its sign, its digits and what follows. -/
def takeExponent : List Byte → Option (Bool × List Byte) × List Byte
  | [] => (none, [])
  | c :: rest =>
    if c = 101 || c = 69 then
      let (negative, text) := takeSign rest
      (some (negative, text.takeWhile isDigit), text.dropWhile isDigit)
    else (none, c :: rest)

/-- The digits after a point, if there is one, and what follows. -/
def takeFraction : List Byte → List Byte × List Byte
  | [] => ([], [])
  | c :: rest =>
    if c = 46 then (rest.takeWhile isDigit, rest.dropWhile isDigit) else ([], c :: rest)

def readFloat (s : IStream) : ℚ × IStream :=
  let s := s.sentry
  if s.good = false then (0, s)
  else
    let (negative, text) := takeSign s.rest
    let whole := text.takeWhile isDigit
    let (fraction, text) := takeFraction (text.dropWhile isDigit)
    if whole ++ fraction = [] then (0, (after text).failed)
    else
      let (exponent, text) := takeExponent text
      let s := after text
      let mantissa : ℚ := (decimalValue (whole ++ fraction) : ℚ) / 10 ^ fraction.length
      match exponent with
      | none =>
        match SinglePrecision.nearest (if negative then -mantissa else mantissa) with
        | none => (0, s.failed)
        | some value => (value, s)
      | some (negativeExponent, digits) =>
        let scale : ℚ := 10 ^ decimalValue digits
        let magnitude := if negativeExponent then mantissa / scale else mantissa * scale
        if digits = [] then (0, s.failed)
        else
          match SinglePrecision.nearest (if negative then -magnitude else magnitude) with
          | none => (0, s.failed)
          | some value => (value, s)

def ignore (n : Nat) (s : IStream) : IStream :=
  if s.good then after (s.rest.drop n) else s.failed

/-- `getline`. The end of the line is read and not stored. -/
def getline (s : IStream) : List Byte × IStream :=
  if s.good then
    let line := s.rest.takeWhile (· ≠ 10)
    match s.rest.dropWhile (· ≠ 10) with
    | [] => (line, ⟨[], true, line.isEmpty⟩)
    | _ :: rest => (line, ⟨rest, false, false⟩)
  else ([], s.failed)

end IStream

def decimal (n : Nat) : List Byte :=
  if n < 10 then [BitVec.ofNat 8 (48 + n)]
  else decimal (n / 10) ++ [BitVec.ofNat 8 (48 + n % 10)]

/-- An integer in decimal, with a sign if it is negative. -/
def intText (x : Int) : List Byte := if x < 0 then 45 :: decimal x.natAbs else decimal x.natAbs

theorem digit_toNat {d : Nat} (h : d < 10) : (BitVec.ofNat 8 (48 + d)).toNat = 48 + d := by
  rw [BitVec.toNat_ofNat]
  omega

theorem digit_isDigit {d : Nat} (h : d < 10) : isDigit (BitVec.ofNat 8 (48 + d)) = true := by
  rw [isDigit, digit_toNat h, Bool.and_eq_true, decide_eq_true_iff, decide_eq_true_iff]
  omega

theorem decimal_ne_nil (n : Nat) : decimal n ≠ [] := by
  rw [decimal]
  split <;> simp

theorem decimal_isDigit (n : Nat) : ∀ c ∈ decimal n, isDigit c = true := by
  induction n using Nat.strongRecOn with
  | ind n ih =>
    intro c hc
    rw [decimal] at hc
    split at hc
    · rename_i hsmall
      rw [List.mem_singleton] at hc
      rw [hc]
      exact digit_isDigit hsmall
    · rw [List.mem_append, List.mem_singleton] at hc
      rcases hc with hc | rfl
      · exact ih (n / 10) (by omega) c hc
      · exact digit_isDigit (Nat.mod_lt _ (by omega))

theorem decimalValue_append (digits : List Byte) (c : Byte) :
    decimalValue (digits ++ [c]) = 10 * decimalValue digits + (c.toNat - 48) := by
  simp [decimalValue]

theorem decimalValue_decimal (n : Nat) : decimalValue (decimal n) = n := by
  induction n using Nat.strongRecOn with
  | ind n ih =>
    rw [decimal]
    split
    · rename_i hsmall
      simp only [decimalValue, List.foldl_cons, List.foldl_nil, digit_toNat hsmall]
      omega
    · rw [decimalValue_append, ih (n / 10) (by omega), digit_toNat (Nat.mod_lt _ (by omega))]
      omega

theorem takeWhile_append_stop {p : Byte → Bool} {xs : List Byte} (h : ∀ c ∈ xs, p c = true)
    {c : Byte} (hc : p c = false) (rest : List Byte) :
    (xs ++ c :: rest).takeWhile p = xs ∧ (xs ++ c :: rest).dropWhile p = c :: rest := by
  induction xs with
  | nil => simp [hc]
  | cons x xs ih =>
    have hx := h x (List.mem_cons_self ..)
    obtain ⟨htake, hdrop⟩ := ih fun c hc => h c (List.mem_cons_of_mem _ hc)
    simp [hx, htake, hdrop]

theorem isDigit_facts {c : Byte} (h : isDigit c = true) : c ≠ 45 ∧ c ≠ 43 ∧ isSpace c = false := by
  rw [isDigit, Bool.and_eq_true, decide_eq_true_iff, decide_eq_true_iff] at h
  refine ⟨?_, ?_, ?_⟩
  · rintro rfl
    exact absurd h.1 (by decide)
  · rintro rfl
    exact absurd h.1 (by decide)
  · rw [isSpace, Bool.or_eq_false_iff]
    constructor
    · rw [decide_eq_false_iff_not]
      rintro rfl
      exact absurd h.1 (by decide)
    · rw [Bool.and_eq_false_iff, decide_eq_false_iff_not, decide_eq_false_iff_not]
      omega

theorem takeSign_intText (x : Int) (rest : List Byte) :
    takeSign (intText x ++ rest) = (decide (x < 0), decimal x.natAbs ++ rest) := by
  unfold intText
  split
  · rename_i hneg
    simp [takeSign, hneg]
  · rename_i hpos
    obtain ⟨c, digits, hdigits⟩ := List.exists_cons_of_ne_nil (decimal_ne_nil x.natAbs)
    have hdigit := isDigit_facts (decimal_isDigit x.natAbs c (by simp [hdigits]))
    rw [hdigits, List.cons_append, takeSign, if_neg hdigit.1, if_neg hdigit.2.1]
    simp [hpos]

theorem intText_head (x : Int) : ∃ c rest, intText x = c :: rest ∧ isSpace c = false := by
  unfold intText
  split
  · exact ⟨45, _, rfl, by decide⟩
  · obtain ⟨c, digits, hdigits⟩ := List.exists_cons_of_ne_nil (decimal_ne_nil x.natAbs)
    exact ⟨c, digits, hdigits, (isDigit_facts (decimal_isDigit x.natAbs c (by simp [hdigits]))).2.2⟩

theorem signed_natAbs (x : Int) :
    (if decide (x < 0) = true then -(x.natAbs : Int) else x.natAbs) = x := by
  by_cases hneg : x < 0
  · simp only [hneg, decide_true, if_true]
    omega
  · simp only [hneg, decide_false, Bool.false_eq_true, if_false]
    omega

namespace IStream

theorem sentry_text {spaces text rest : List Byte} (hspaces : ∀ c ∈ spaces, isSpace c = true)
    {c : Byte} (htext : text = c :: rest) (hc : isSpace c = false) :
    (ofText (spaces ++ text)).sentry = ofText text := by
  have hdrop := (takeWhile_append_stop hspaces hc rest).2
  rw [← htext] at hdrop
  have hne : text.isEmpty = false := by simp [htext]
  simp [sentry, ofText, good, hdrop, hne]

theorem readInt_mem (s : IStream) : -2 ^ 31 ≤ s.readInt.1 ∧ s.readInt.1 < 2 ^ 31 := by
  unfold readInt
  grind

/-- An `int` is read back, whatever white space precedes it, up to what is no digit. -/
theorem readInt_intText {x : Int} (hx : -2 ^ 31 ≤ x ∧ x < 2 ^ 31) {spaces : List Byte}
    (hspaces : ∀ c ∈ spaces, isSpace c = true) {c : Byte} (hc : isDigit c = false)
    (rest : List Byte) :
    (ofText (spaces ++ (intText x ++ c :: rest))).readInt = (x, ofText (c :: rest)) := by
  obtain ⟨first, others, htext, hfirst⟩ := intText_head x
  have hsentry := sentry_text hspaces
    (show intText x ++ c :: rest = first :: (others ++ c :: rest) by rw [htext]; rfl) hfirst
  obtain ⟨htake, hdrop⟩ := takeWhile_append_stop (decimal_isDigit x.natAbs) hc rest
  unfold readInt
  simp only [hsentry]
  rw [if_neg (by simp [good, ofText])]
  simp only [ofText, takeSign_intText, htake, hdrop, decimalValue_decimal]
  rw [if_neg (decimal_ne_nil _)]
  rw [signed_natAbs, if_neg (by omega), if_neg (by omega)]
  rfl

theorem scan_decimal (n : Nat) {spaces : List Byte} (hspaces : ∀ c ∈ spaces, isSpace c = true)
    {c : Byte} (hc : isDigit c = false) (rest : List Byte) :
    (ofText (spaces ++ (decimal n ++ c :: rest))).sentry = ofText (decimal n ++ c :: rest) ∧
      takeSign (decimal n ++ c :: rest) = (false, decimal n ++ c :: rest) ∧
      (decimal n ++ c :: rest).takeWhile isDigit = decimal n ∧
      (decimal n ++ c :: rest).dropWhile isDigit = c :: rest := by
  obtain ⟨first, others, htext⟩ := List.exists_cons_of_ne_nil (decimal_ne_nil n)
  have hfirst := isDigit_facts (decimal_isDigit n first (by simp [htext]))
  have hcons : decimal n ++ c :: rest = first :: (others ++ c :: rest) := by
    rw [htext]
    rfl
  refine ⟨sentry_text hspaces hcons hfirst.2.2, ?_,
    takeWhile_append_stop (decimal_isDigit n) hc rest⟩
  rw [hcons, takeSign, if_neg hfirst.1, if_neg hfirst.2.1]

theorem readInt_large {n : Nat} (hn : 2 ^ 31 ≤ n) {c : Byte} (hc : isDigit c = false)
    (rest : List Byte) : (ofText (decimal n ++ c :: rest)).readInt.2.good = false := by
  have hnone : ∀ c ∈ ([] : List Byte), isSpace c = true := by simp
  obtain ⟨hsentry, hsign, htake, hdrop⟩ := scan_decimal n hnone hc rest
  rw [List.nil_append] at hsentry
  unfold readInt
  simp only [hsentry]
  rw [if_neg (by simp [good, ofText])]
  simp only [ofText, hsign, htake, hdrop, decimalValue_decimal]
  rw [if_neg (decimal_ne_nil _)]
  simp only [Bool.false_eq_true, if_false]
  rw [if_neg (by omega), if_pos (by omega)]
  simp [good, failed, after]

theorem readUnsigned_decimal {n width : Nat} (hn : n < 2 ^ width) {spaces : List Byte}
    (hspaces : ∀ c ∈ spaces, isSpace c = true) {c : Byte} (hc : isDigit c = false)
    (rest : List Byte) :
    (ofText (spaces ++ (decimal n ++ c :: rest))).readUnsigned width =
      (n, ofText (c :: rest)) := by
  obtain ⟨hsentry, hsign, htake, hdrop⟩ := scan_decimal n hspaces hc rest
  unfold readUnsigned
  simp only [hsentry]
  rw [if_neg (by simp [good, ofText])]
  simp only [ofText, hsign, htake, hdrop, decimalValue_decimal]
  rw [if_neg (decimal_ne_nil _), if_neg (Nat.not_le.mpr hn)]
  rfl

theorem readUnsigned_large {n width : Nat} (hn : 2 ^ width ≤ n) {spaces : List Byte}
    (hspaces : ∀ c ∈ spaces, isSpace c = true) {c : Byte} (hc : isDigit c = false)
    (rest : List Byte) :
    ((ofText (spaces ++ (decimal n ++ c :: rest))).readUnsigned width).2.good = false := by
  obtain ⟨hsentry, hsign, htake, hdrop⟩ := scan_decimal n hspaces hc rest
  unfold readUnsigned
  simp only [hsentry]
  rw [if_neg (by simp [good, ofText])]
  simp only [ofText, hsign, htake, hdrop, decimalValue_decimal]
  rw [if_neg (decimal_ne_nil _), if_pos hn]
  simp [good, failed, after]

theorem readWord_text {word : List Byte} (hne : word ≠ [])
    (hword : ∀ c ∈ word, isSpace c = false) {spaces : List Byte}
    (hspaces : ∀ c ∈ spaces, isSpace c = true) {c : Byte} (hc : isSpace c = true)
    (rest : List Byte) :
    (ofText (spaces ++ (word ++ c :: rest))).readWord = (word, ofText (c :: rest)) := by
  obtain ⟨first, others, rfl⟩ := List.exists_cons_of_ne_nil hne
  have hsentry : (ofText (spaces ++ (first :: others ++ c :: rest))).sentry =
      ofText (first :: others ++ c :: rest) :=
    sentry_text hspaces (List.cons_append ..) (hword first (List.mem_cons_self ..))
  have hstop : ∀ d ∈ first :: others, (!isSpace d) = true := by
    intro d hd
    rw [hword d hd]
    rfl
  obtain ⟨htake, hdrop⟩ := takeWhile_append_stop hstop (by rw [hc]; rfl) rest
  unfold readWord
  simp only [hsentry]
  rw [if_neg (by simp [good, ofText])]
  simp only [ofText, htake, hdrop]
  rfl

theorem getline_text {line : List Byte} (hline : (10 : Byte) ∉ line) (rest : List Byte) :
    (ofText (line ++ 10 :: rest)).getline = (line, ofText rest) := by
  have hstop : ∀ c ∈ line, (decide (c ≠ 10)) = true := by
    intro c hc
    rw [decide_eq_true_iff]
    rintro rfl
    exact hline hc
  have hend : decide ((10 : Byte) ≠ 10) = false := by decide
  obtain ⟨htake, hdrop⟩ := takeWhile_append_stop hstop hend rest
  have hgood : (ofText (line ++ 10 :: rest)).good = true := rfl
  unfold getline
  rw [if_pos hgood]
  simp only [ofText, htake, hdrop]

end IStream

end TextStream

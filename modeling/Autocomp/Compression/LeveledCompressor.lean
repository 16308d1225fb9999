import Autocomp.Compression.PreCompressing

/-!
# Setting a compressor and its level

`LeveledCompressor::setCompressionLevel`, and the two `setCompressor`s: that of `SingleCompressor`,
which sets the level of the compressor's object, and that of `PreCompressingFileProcessor`, which
keeps a level of its own. Both take a value of the enumeration, which need not be one of its names.
-/

namespace Autocomp

namespace LeveledCompressor

/-- `setCompressionLevel`: the level that the object of a compressor has after it. -/
def setCompressionLevel (compressor : Compressor) (l : Levels) (compressionLevel : Int) :
    Except Exn Int :=
  if compressionLevel < l.minCompressionLevel ∨ l.maxCompressionLevel < compressionLevel then
    .error (.invalidCompressionLevelError compressor.name compressionLevel [])
  else .ok compressionLevel

def constructed (compressor : Compressor) : Int :=
  match compressor.levels with
  | some l => l.defaultCompressionLevel
  | none => -1

end LeveledCompressor

/-- A level of the range. -/
def Levels.Contains (l : Levels) (compressionLevel : Int) : Prop :=
  l.minCompressionLevel ≤ compressionLevel ∧ compressionLevel ≤ l.maxCompressionLevel

namespace Levels

instance (l : Levels) (compressionLevel : Int) : Decidable (l.Contains compressionLevel) :=
  inferInstanceAs (Decidable (_ ∧ _))

theorem not_contains {l : Levels} {compressionLevel : Int} : ¬ l.Contains compressionLevel ↔
    compressionLevel < l.minCompressionLevel ∨ l.maxCompressionLevel < compressionLevel := by
  rw [Contains]
  omega

theorem contains_nonneg {c : Compressor} {l : Levels} {compressionLevel : Int}
    (hlevels : c.levels = some l) (h : l.Contains compressionLevel) :
    0 ≤ compressionLevel ∧ compressionLevel ≤ 28 := by
  rw [Contains] at h
  cases c <;> simp only [Compressor.levels, Option.some.injEq, reduceCtorEq] at hlevels <;>
    subst hlevels <;> simp only at h <;> omega

theorem contains_default {c : Compressor} {l : Levels} (hlevels : c.levels = some l) :
    l.Contains l.defaultCompressionLevel := by
  cases c <;> simp only [Compressor.levels, Option.some.injEq, reduceCtorEq] at hlevels <;>
    subst hlevels <;> decide

end Levels

namespace LeveledCompressor

theorem setCompressionLevel_ok (compressor : Compressor) {l : Levels} {compressionLevel : Int}
    (h : l.Contains compressionLevel) :
    setCompressionLevel compressor l compressionLevel = .ok compressionLevel := by
  apply if_neg
  rw [← Levels.not_contains, not_not]
  exact h

theorem setCompressionLevel_error (compressor : Compressor) {l : Levels} {compressionLevel : Int}
    (h : ¬ l.Contains compressionLevel) :
    setCompressionLevel compressor l compressionLevel =
      .error (.invalidCompressionLevelError compressor.name compressionLevel []) :=
  if_pos (Levels.not_contains.mp h)

end LeveledCompressor

open LeveledCompressor

/-- The level that each object of `compressors` has, and the compressor and level set last. -/
structure SingleCompressor where
  compressionLevel : Compressor → Int
  currentCompressor : Compressor
  currentCompressionLevel : Int

namespace SingleCompressor

def new : SingleCompressor := ⟨constructed, .ZLIB, 6⟩

/-- The level that `compress` uses. -/
def getCompressionLevel (s : SingleCompressor) : Int :=
  match s.currentCompressor.levels with
  | some _ => s.compressionLevel s.currentCompressor
  | none => -1

/-- The compressor must be one of the enumeration's. -/
def setCompressor (compressor : Nat) (compressionLevel : Int) (s : SingleCompressor) :
    Except Exn Unit × SingleCompressor :=
  match Compressor.ofValue? compressor with
  | none =>
    (.error (.invalidCompressorError compressor
      (ascii "Maximum value for a compressor is 6 (COPY)")), s)
  | some c =>
    match c.levels with
    | none => (.ok (), { s with currentCompressor := c, currentCompressionLevel := -1 })
    | some l =>
      match (if compressionLevel ≠ -1 then setCompressionLevel c l compressionLevel
        else .ok l.defaultCompressionLevel) with
      | .error x => (.error x, s)
      | .ok level =>
        (.ok (), ⟨Function.update s.compressionLevel c level, c, level⟩)

def strategy (s : SingleCompressor) : AutomaticCompressionStrategy :=
  .single s.currentCompressor s.getCompressionLevel

/-- What is configured by a request is what a new object comes to. -/
theorem setCompressor_new (c : Compressor) (compressionLevel : Int) :
    AutomaticCompressionStrategy.setCompressor c compressionLevel =
      (new.setCompressor c.value compressionLevel).1.map fun _ =>
        (new.setCompressor c.value compressionLevel).2.strategy := by
  rw [setCompressor, Compressor.ofValue?_value, AutomaticCompressionStrategy.setCompressor]
  cases hlevels : c.levels with
  | none => simp only [Except.map, strategy, getCompressionLevel, hlevels]
  | some l =>
    by_cases hdefault : compressionLevel = -1
    · simp [hdefault, Except.map, strategy, getCompressionLevel, hlevels]
    · by_cases hcontains : l.Contains compressionLevel
      · have hrange := mt Levels.not_contains.mpr (not_not.mpr hcontains)
        simp [hdefault, setCompressionLevel_ok c hcontains, Except.map, strategy,
          getCompressionLevel, hlevels, hrange]
      · have hrange := Levels.not_contains.mp hcontains
        simp [hdefault, setCompressionLevel_error c hcontains, Except.map, hrange, hlevels]

theorem setCompressor_unchanged {compressor : Nat} {compressionLevel : Int} {s : SingleCompressor}
    {x : Exn} (h : (s.setCompressor compressor compressionLevel).1 = .error x) :
    (s.setCompressor compressor compressionLevel).2 = s := by
  unfold setCompressor at h ⊢
  cases hvalue : Compressor.ofValue? compressor with
  | none => rfl
  | some c =>
    simp only [hvalue] at h ⊢
    cases hlevels : c.levels with
    | none =>
      simp only [hlevels] at h
      contradiction
    | some l =>
      simp only [hlevels] at h ⊢
      split at h
      · rfl
      · contradiction

theorem setCompressor_accepts {compressor : Nat} {compressionLevel : Int} {s : SingleCompressor} :
    (s.setCompressor compressor compressionLevel).1 = .ok () ↔
      ∃ c, Compressor.ofValue? compressor = some c ∧
        ∀ l, c.levels = some l → compressionLevel = -1 ∨ l.Contains compressionLevel := by
  unfold setCompressor
  cases hvalue : Compressor.ofValue? compressor with
  | none => simp
  | some c =>
    simp only [Option.some.injEq, exists_eq_left']
    cases hlevels : c.levels with
    | none => simp
    | some l =>
      simp only [Option.some.injEq, forall_eq']
      by_cases hdefault : compressionLevel = -1
      · simp [hdefault]
      · by_cases hcontains : l.Contains compressionLevel
        · simp [hdefault, setCompressionLevel_ok c hcontains, hcontains]
        · simp [hdefault, setCompressionLevel_error c hcontains, hcontains]

end SingleCompressor

namespace PreCompressingFileProcessor

/-- `setCompressor` on a value of the enumeration. -/
def setCompressorValue (compressor : Nat) (compressionLevel : Int)
    (p : PreCompressingFileProcessor) : Except Exn Unit × PreCompressingFileProcessor :=
  match Compressor.ofValue? compressor with
  | none =>
    (.error (.invalidCompressorError compressor
      (ascii "Setting and invalid compressor in PreCompressingFileProcessor")), p)
  | some c =>
    match p.setCompressor c compressionLevel with
    | .error x => (.error x, p)
    | .ok p => (.ok (), p)

theorem setCompressor_eq (c : Compressor) (compressionLevel : Int)
    (p : PreCompressingFileProcessor) :
    p.setCompressor c compressionLevel = .ok (match c.levels with
      | none => { p with compressor := c }
      | some l => { p with
          compressor := c
          compressionLevel :=
            if compressionLevel = -1 then l.defaultCompressionLevel else compressionLevel }) := by
  unfold setCompressor
  cases hlevels : c.levels with
  | none => rfl
  | some l =>
    simp only
    by_cases hdefault : compressionLevel = -1
    · rw [if_pos hdefault, if_pos hdefault]
    · rw [if_neg hdefault, if_neg hdefault]
      have hbounds : l.minCompressionLevel ≤ l.maxCompressionLevel :=
        (Levels.contains_default hlevels).1.trans (Levels.contains_default hlevels).2
      apply if_pos
      omega

theorem setCompressorValue_accepts {compressor : Nat} {compressionLevel : Int}
    {p : PreCompressingFileProcessor} :
    (p.setCompressorValue compressor compressionLevel).1 = .ok () ↔
      ∃ c, Compressor.ofValue? compressor = some c := by
  unfold setCompressorValue
  cases Compressor.ofValue? compressor with
  | none => simp
  | some c => simp [setCompressor_eq]

theorem setCompressorValue_unchanged {compressor : Nat} {compressionLevel : Int}
    {p : PreCompressingFileProcessor} {x : Exn}
    (h : (p.setCompressorValue compressor compressionLevel).1 = .error x) :
    (p.setCompressorValue compressor compressionLevel).2 = p := by
  unfold setCompressorValue at h ⊢
  cases hvalue : Compressor.ofValue? compressor with
  | none => rfl
  | some c =>
    simp only [hvalue, setCompressor_eq] at h
    contradiction

end PreCompressingFileProcessor

end Autocomp

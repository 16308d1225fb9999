import Autocomp.Compression.LeveledCompressor
import Autocomp.Network.Unwinding

/-!
# Levels of requests

A request may carry a level for its compressor, an unsigned number that `configureFileProcessor`
hands to a `setCompressor` as an `int`. A level of the range is used as it is; one out of the range
should be refused.
-/

namespace Autocomp.Server.Unwinding

open AutomaticCompressionStrategy LeveledCompressor MachineInt

/-- The compressor and the level that chunks, or whole files, are compressed with. -/
def Processor.Uses (compressor : Compressor) (compressionLevel : Int) : Processor → Prop
  | .file _ (.fixed s) | .file _ (.training s) => s.next.1 = (compressor, compressionLevel)
  | .file _ .adaptive => False
  | .preCompressing p => p.compressor = compressor ∧ p.compressionLevel = compressionLevel

/-- A mode in which the compressor and the level of a request matter. -/
def Leveling (mode : FileRequestMode) : Prop :=
  mode = .COMPRESS ∨ mode = .TRAIN ∨ mode = .PRE_COMPRESS

structure Naming (fileRequest : FileTransmissionRequest) (mode : FileRequestMode)
    (compressor : Compressor) (compressionLevel : BitVec 32) : Prop where
  mode : fileRequest.mode = some mode
  compressor : fileRequest.compressor = some compressor
  compressionLevel : fileRequest.compressionLevel = some compressionLevel

/-- What a request with a level should come to: the level is used if the range has it, and refused
if not. -/
structure Honoured (fileRequest : FileTransmissionRequest) (compressor : Compressor) (l : Levels)
    (compressionLevel : Int) : Prop where
  accepted : l.Contains compressionLevel →
    ∃ p, configureFileProcessor fileRequest = .ok p ∧ p.Uses compressor compressionLevel
  refused : ¬ l.Contains compressionLevel → ∃ name level message,
    configureFileProcessor fileRequest = .error (.invalidCompressionLevelError name level message)

theorem requestedLevel_eq {fileRequest : FileTransmissionRequest} {mode : FileRequestMode}
    {compressor : Compressor} {compressionLevel : BitVec 32}
    (h : Naming fileRequest mode compressor compressionLevel) :
    requestedLevel fileRequest = compressionLevel.toInt := by
  rw [requestedLevel, h.compressionLevel]
  simp [toInt32]

theorem toInt_of_contains {c : Compressor} {l : Levels} (hlevels : c.levels = some l)
    {compressionLevel : BitVec 32} (h : l.Contains compressionLevel.toNat) :
    compressionLevel.toInt = compressionLevel.toNat := by
  have hrange := Levels.contains_nonneg hlevels h
  rw [BitVec.toInt_eq_toNat_cond, if_pos (by omega)]

theorem contains_toInt {c : Compressor} {l : Levels} (hlevels : c.levels = some l)
    {compressionLevel : BitVec 32} (h : l.Contains compressionLevel.toInt) :
    l.Contains compressionLevel.toNat := by
  have hrange := Levels.contains_nonneg hlevels h
  rw [BitVec.toInt_eq_toNat_cond] at h hrange
  split at h
  · exact h
  · rename_i hlarge
    rw [if_neg hlarge] at hrange
    have hlt := compressionLevel.isLt
    omega

theorem toInt_eq_sentinel {compressionLevel : BitVec 32} :
    compressionLevel.toInt = -1 ↔ compressionLevel.toNat = 2 ^ 32 - 1 := by
  rw [BitVec.toInt_eq_toNat_cond]
  have hlt := compressionLevel.isLt
  split <;> omega

section

variable {compressor : Compressor} {l : Levels} (hlevels : compressor.levels = some l)

include hlevels

theorem setCompressor_contains {compressionLevel : Int} (h : l.Contains compressionLevel) :
    setCompressor compressor compressionLevel = .ok (.single compressor compressionLevel) := by
  have hrange := Levels.contains_nonneg hlevels h
  have hinside := mt Levels.not_contains.mpr (not_not.mpr h)
  simp only [setCompressor, hlevels]
  rw [if_neg (by omega), if_neg hinside]

theorem setCompressor_not_contains {compressionLevel : Int} (h : ¬ l.Contains compressionLevel)
    (hsentinel : compressionLevel ≠ -1) : setCompressor compressor compressionLevel =
      .error (.invalidCompressionLevelError compressor.name compressionLevel []) := by
  simp only [setCompressor, hlevels]
  rw [if_neg hsentinel, if_pos (Levels.not_contains.mp h)]

theorem setCompressor_sentinel : setCompressor compressor (-1) =
    .ok (.single compressor l.defaultCompressionLevel) := by
  simp only [setCompressor, hlevels, if_true]

theorem honoured_single {fileRequest : FileTransmissionRequest} {mode : FileRequestMode}
    {compressionLevel : BitVec 32} (h : Naming fileRequest mode compressor compressionLevel)
    (hmode : mode = .COMPRESS ∨ mode = .TRAIN) :
    Honoured fileRequest compressor l compressionLevel.toNat ↔
      compressionLevel.toNat ≠ 2 ^ 32 - 1 := by
  have hconfigure : ∃ processor : AutomaticCompressionStrategy → Processor,
      configureFileProcessor fileRequest =
        (setCompressor compressor compressionLevel.toInt).map processor ∧
      ∀ s, (processor s).Uses compressor compressionLevel.toNat ↔
        s.next.1 = (compressor, (compressionLevel.toNat : Int)) := by
    rcases hmode with rfl | rfl
    · refine ⟨fun s => .file (.new 512) (.fixed s), ?_, fun s => Iff.rfl⟩
      simp only [configureFileProcessor, h.mode, h.compressor, requestedLevel_eq h,
        Option.getD_some]
    · refine ⟨fun s => .file (.new 64) (.training s), ?_, fun s => Iff.rfl⟩
      simp only [configureFileProcessor, h.mode, h.compressor, requestedLevel_eq h,
        Option.getD_some]
  obtain ⟨processor, hconfigure, huses⟩ := hconfigure
  constructor
  · intro hhonoured hsentinel
    have houtside : ¬ l.Contains compressionLevel.toNat := by
      intro hcontains
      have hrange := Levels.contains_nonneg hlevels hcontains
      omega
    obtain ⟨name, level, message, hrefused⟩ := hhonoured.refused houtside
    rw [hconfigure, toInt_eq_sentinel.mpr hsentinel, setCompressor_sentinel hlevels] at hrefused
    contradiction
  · intro hsentinel
    constructor
    · intro hcontains
      have hint := toInt_of_contains hlevels hcontains
      refine ⟨_, ?_, (huses (.single compressor compressionLevel.toNat)).mpr rfl⟩
      rw [hconfigure, hint, setCompressor_contains hlevels hcontains]
      rfl
    · intro houtside
      have hint := mt (contains_toInt hlevels) houtside
      refine ⟨compressor.name, compressionLevel.toInt, [], ?_⟩
      rw [hconfigure, setCompressor_not_contains hlevels hint (mt toInt_eq_sentinel.mp hsentinel)]
      rfl

theorem honoured_preCompressing {fileRequest : FileTransmissionRequest}
    {compressionLevel : BitVec 32}
    (h : Naming fileRequest .PRE_COMPRESS compressor compressionLevel) :
    Honoured fileRequest compressor l compressionLevel.toNat ↔
      l.Contains compressionLevel.toNat := by
  have hconfigure : configureFileProcessor fileRequest =
      (PreCompressingFileProcessor.new.setCompressor compressor compressionLevel.toInt).map
        .preCompressing := by
    simp only [configureFileProcessor, h.mode, h.compressor, requestedLevel_eq h, Option.getD_some]
  rw [PreCompressingFileProcessor.setCompressor_eq] at hconfigure
  constructor
  · intro hhonoured
    by_contra houtside
    obtain ⟨name, level, message, hrefused⟩ := hhonoured.refused houtside
    rw [hconfigure] at hrefused
    contradiction
  · intro hcontains
    constructor
    · intro _
      have hint := toInt_of_contains hlevels hcontains
      refine ⟨_, hconfigure, ?_⟩
      simp only [hlevels, Processor.Uses, hint, true_and]
      exact if_neg (by omega)
    · intro houtside
      contradiction

end

/-- Both accept a compressor with a level, or neither does. -/
def Agree (compressor : Nat) (compressionLevel : Int) (s : SingleCompressor)
    (p : PreCompressingFileProcessor) : Prop :=
  (s.setCompressor compressor compressionLevel).1 = .ok () ↔
    (p.setCompressorValue compressor compressionLevel).1 = .ok ()

theorem agree_iff (compressor : Nat) (compressionLevel : Int) (s : SingleCompressor)
    (p : PreCompressingFileProcessor) : Agree compressor compressionLevel s p ↔
      ∀ c l, Compressor.ofValue? compressor = some c → c.levels = some l →
        compressionLevel = -1 ∨ l.Contains compressionLevel := by
  rw [Agree, SingleCompressor.setCompressor_accepts,
    PreCompressingFileProcessor.setCompressorValue_accepts]
  constructor
  · intro hagree c l hvalue hlevels
    obtain ⟨c', hvalue', haccepted⟩ := hagree.mpr ⟨c, hvalue⟩
    rw [hvalue, Option.some.injEq] at hvalue'
    rw [← hvalue'] at haccepted
    exact haccepted l hlevels
  · intro hlevels
    constructor
    · rintro ⟨c, hvalue, -⟩
      exact ⟨c, hvalue⟩
    · rintro ⟨c, hvalue⟩
      exact ⟨c, hvalue, fun l => hlevels c l hvalue⟩

/-- Which levels are honoured: those of the range by the processor of whole files, and all but the
sentinel by the strategies. The two `setCompressor`s agree on the sentinel and on the levels of the
range, and change nothing when they throw. -/
theorem honoured_iff (fileRequest : FileTransmissionRequest) (mode : FileRequestMode)
    (compressor : Compressor) (l : Levels) (compressionLevel : BitVec 32) (hmode : Leveling mode)
    (hlevels : compressor.levels = some l)
    (hnaming : Naming fileRequest mode compressor compressionLevel) :
    (Honoured fileRequest compressor l compressionLevel.toNat ↔
      if mode = .PRE_COMPRESS then l.Contains compressionLevel.toNat
      else compressionLevel.toNat ≠ 2 ^ 32 - 1) ∧
    ∀ value level (s : SingleCompressor) (p : PreCompressingFileProcessor),
      (Agree value level s p ↔
        ∀ c l, Compressor.ofValue? value = some c → c.levels = some l →
          level = -1 ∨ l.Contains level) ∧
      (∀ x, (s.setCompressor value level).1 = .error x → (s.setCompressor value level).2 = s) ∧
      ∀ x, (p.setCompressorValue value level).1 = .error x →
        (p.setCompressorValue value level).2 = p := by
  constructor
  · by_cases hpre : mode = .PRE_COMPRESS
    · rw [if_pos hpre]
      rw [hpre] at hnaming
      exact honoured_preCompressing hlevels hnaming
    · rw [if_neg hpre]
      apply honoured_single hlevels hnaming
      rcases hmode with h | h | h
      · exact .inl h
      · exact .inr h
      · contradiction
  · intro value level s p
    refine ⟨agree_iff value level s p, ?_, ?_⟩
    · intro x
      exact SingleCompressor.setCompressor_unchanged
    · intro x
      exact PreCompressingFileProcessor.setCompressorValue_unchanged

def zlibRequest (mode : FileRequestMode) (compressionLevel : BitVec 32) :
    FileTransmissionRequest :=
  ⟨some (ascii "a"), some mode, some .ZLIB, some compressionLevel⟩

theorem honoured_zlib :
    Honoured (zlibRequest .PRE_COMPRESS 9) .ZLIB ⟨0, 9, 6⟩ 9 ∧
      Honoured (zlibRequest .TRAIN 10) .ZLIB ⟨0, 9, 6⟩ 10 :=
  ⟨(honoured_iff _ .PRE_COMPRESS .ZLIB ⟨0, 9, 6⟩ 9 (.inr (.inr rfl)) rfl ⟨rfl, rfl, rfl⟩).1.mpr
    (by decide),
    (honoured_iff _ .TRAIN .ZLIB ⟨0, 9, 6⟩ 10 (.inr (.inl rfl)) rfl ⟨rfl, rfl, rfl⟩).1.mpr
      (by decide)⟩

/-- The processor of whole files accepts level 10, which the other `setCompressor` refuses, and the
largest level of all is taken for the default one. -/
theorem level_ten_accepted :
    ¬ Honoured (zlibRequest .PRE_COMPRESS 10) .ZLIB ⟨0, 9, 6⟩ 10 ∧
      (∃ p, configureFileProcessor (zlibRequest .PRE_COMPRESS 10) = .ok p ∧ p.Uses .ZLIB 10) ∧
      ¬ Agree 0 10 .new .new ∧
      ∃ p, configureFileProcessor (zlibRequest .COMPRESS 4294967295) = .ok p ∧ p.Uses .ZLIB 6 := by
  refine ⟨?_, ⟨_, rfl, rfl, rfl⟩, ?_, _, rfl, rfl⟩
  · intro hhonoured
    obtain ⟨name, level, message, hrefused⟩ := hhonoured.refused (by decide)
    contradiction
  · intro hagree
    have haccepted := hagree.mpr rfl
    contradiction

end Autocomp.Server.Unwinding

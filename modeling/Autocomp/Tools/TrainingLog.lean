import Autocomp.Compression.Bytecounting
import Autocomp.Lib.Csv
import Autocomp.Tools.PerformanceParser

/-!
# The training log

`TrainingCompressor::compress` writes a row for each chunk that it does not find hard to compress,
with six significant digits of every `float`, and the parser reads the rows back. Whether it finds a
cell for all of them depends on where the ends of the measured ranges are put.
-/

namespace Autocomp

open ByteMemory TextStream

namespace TrainingCompressor

/-- `getBytecounting`, which is that of the other compressor word for word. -/
def getBytecounting (inData : ByteString) : Nat := AutoCompCompressor.getBytecounting inData

/-- A call of `compress`: the chunk, the compressor that is set, the state of the resources, and what
is measured if the chunk is compressed. -/
structure Call where
  inData : ByteString
  currentCompressor : Compressor
  currentCompressionLevel : Int
  cpuLoad : PyFloat
  availableBandwidth : PyFloat
  compressionRate : PyFloat
  compressionRatio : PyFloat

/-- The values that are written, if any are: the name and the level of the compressor and five
measurements, of which the third one is an integer. -/
def compress (call : Call) : Option (List ByteString) :=
  let bytecounting := getBytecounting call.inData
  if 100 < bytecounting then none
  else
    let (compressionRate, compressionRatio) :=
      if call.currentCompressor ≠ .COPY then (call.compressionRate, call.compressionRatio)
      else (call.availableBandwidth, .finite 1)
    some [call.currentCompressor.name, intText call.currentCompressionLevel, call.cpuLoad.text,
      call.availableBandwidth.text, intText bytecounting, compressionRate.text,
      compressionRatio.text]

def log (calls : List Call) : ByteString := Csv.file (calls.filterMap compress)

/-- A positive number, or one too large for a `float`. -/
def Positive (x : PyFloat) : Prop := x = .inf ∨ ∃ q, 0 < q ∧ x = .finite q

/-- The measurements are in their ranges. -/
structure Call.Measured (call : Call) : Prop where
  cpuLoad : ∃ q, 0 ≤ q ∧ q ≤ 1 ∧ call.cpuLoad = .finite q
  availableBandwidth : call.availableBandwidth = .finite 0 ∨ Positive call.availableBandwidth
  compressionRate : Positive call.compressionRate
  compressionRatio : Positive call.compressionRatio

end TrainingCompressor

namespace AutoCompPerformanceDataParser

open PerformanceData TrainingCompressor

/-- `parse` raises no exception, and every index that it uses is one of the list that it
is used on. -/
def Sound (text : ByteString) : Prop :=
  ∃ data, parse (Csv.reader text) = .ok data ∧ ∀ indices ∈ data.requested, Existing indices

theorem name_mem (compressor : Compressor) :
    (44 : Byte) ∉ compressor.name ∧ (10 : Byte) ∉ compressor.name := by
  cases compressor <;> decide

theorem notMem_of_numberChars {text : List Byte} (h : ∀ c ∈ text, c ∈ PyFloat.numberChars) :
    (44 : Byte) ∉ text ∧ (10 : Byte) ∉ text := by
  constructor
  · intro hc
    exact absurd (h _ hc) (by decide)
  · intro hc
    exact absurd (h _ hc) (by decide)

theorem plain_of_compress {call : Call} {row : List ByteString} (h : compress call = some row) :
    Csv.Plain row := by
  unfold compress at h
  dsimp only at h
  split at h
  · contradiction
  · have hname := name_mem call.currentCompressor
    have hint := fun x => notMem_of_numberChars (PyFloat.intText_mem x)
    have hfloat := fun x : PyFloat => notMem_of_numberChars x.text_mem
    rw [← Option.some.inj h]
    refine ⟨by simp, ?_, ?_⟩
    · simp only [List.forall_mem_cons]
      exact ⟨hname.1, (hint _).1, (hfloat _).1, (hfloat _).1, (hint _).1, (hfloat _).1, (hfloat _).1,
        fun _ h => absurd h List.not_mem_nil⟩
    · simp only [List.forall_mem_cons]
      exact ⟨hname.2, (hint _).2, (hfloat _).2, (hfloat _).2, (hint _).2, (hfloat _).2, (hfloat _).2,
        fun _ h => absurd h List.not_mem_nil⟩

theorem reader_log (calls : List Call) : Csv.reader (log calls) = calls.filterMap compress := by
  apply Csv.reader_file
  intro row hrow
  obtain ⟨call, -, hcall⟩ := List.mem_filterMap.mp hrow
  exact plain_of_compress hcall

theorem sound_iff (text : ByteString) : Sound text ↔
    ∀ row ∈ Csv.reader text, ∃ found, locate row = .ok found ∧
      ∀ l ∈ found, Existing l.indices := by
  constructor
  · rintro ⟨data, hparse, hexisting⟩ row hrow
    obtain ⟨hall, hdata⟩ := (parse_eq_ok_iff _ data).mp hparse
    obtain ⟨found, hfound⟩ := hall row hrow
    refine ⟨found, hfound, ?_⟩
    intro l hl
    apply hexisting
    rw [← hdata, foldl_record_requested]
    rw [Option.mem_def.mp hl] at hfound
    exact List.mem_append_right _ (List.mem_map_of_mem (mem_observed.mpr ⟨row, hrow, hfound⟩))
  · intro h
    refine ⟨_, (parse_eq_ok_iff _ _).mpr ⟨fun row hrow => ?_, rfl⟩, ?_⟩
    · obtain ⟨found, hfound, -⟩ := h row hrow
      exact ⟨found, hfound⟩
    · intro indices hindices
      rw [foldl_record_requested] at hindices
      obtain ⟨l, hl, rfl⟩ := List.mem_map.mp hindices
      obtain ⟨row, hrow, hlocate⟩ := mem_observed.mp hl
      obtain ⟨found, hfound, hexisting⟩ := h row hrow
      rw [hfound] at hlocate
      exact hexisting l (Except.ok.inj hlocate)

section

variable (name level : ByteString) (cpuLoad bandwidth compressionRate compressionRatio : PyFloat)
  (bytecounting : Nat)

def written : List ByteString :=
  [name, level, cpuLoad.text, bandwidth.text, intText bytecounting, compressionRate.text,
    compressionRatio.text]

/-- The compressor that it is read as. -/
def readName : ByteString :=
  (if level = ascii "-1" then name else name ++ ascii "_" ++ level).map PyFloat.toLower

theorem keeps_written :
    keeps (written name level cpuLoad bandwidth compressionRate compressionRatio bytecounting) =
      .ok (decide ¬ (name = ascii "LZO" ∨ 100 < bytecounting ∨ bandwidth.printed = .finite 0)) := by
  have hbytecounting : (PyFloat.finite 100).lt (.finite ((bytecounting : Int) : ℚ)) =
      decide (100 < bytecounting) := by
    rw [PyFloat.lt_finite, Int.cast_natCast]
    congr 1
    exact propext (by exact_mod_cast Iff.rfl)
  simp only [keeps, written, field, List.getElem?_cons_zero, List.getElem?_cons_succ,
    PyFloat.float_text, PyFloat.float_intText, bind, Except.bind, hbytecounting, pure, Except.pure,
    decide_not, Bool.decide_or, Bool.or_assoc]

theorem read_written :
    read (written name level cpuLoad bandwidth compressionRate compressionRatio bytecounting) =
      .ok ⟨readName name level, cpuLoad.printed, bandwidth.printed, bytecounting,
        (bandwidth.printed.min compressionRate.printed).mul compressionRatio.printed⟩ := by
  simp only [read, written, getCompressor, field, List.take_succ_cons, List.take_zero,
    List.getElem?_cons_zero, List.getElem?_cons_succ, PyFloat.float_text, PyFloat.int_intText, bind,
    Except.bind, pure, Except.pure, readName]

theorem locate_written :
    locate (written name level cpuLoad bandwidth compressionRate compressionRatio bytecounting) =
      if name = ascii "LZO" ∨ 100 < bytecounting ∨ bandwidth.printed = .finite 0 then .ok none
      else do
        let indices ← indicesOf cpuLoad.printed bandwidth.printed bytecounting
        let cell ← cellOf indices
        return some ⟨indices, cell, readName name level,
          (bandwidth.printed.min compressionRate.printed).mul compressionRatio.printed⟩ := by
  rw [locate, keeps_written, read_written]
  by_cases hskip : name = ascii "LZO" ∨ 100 < bytecounting ∨ bandwidth.printed = .finite 0
  · simp [hskip, bind, Except.bind, pure, Except.pure]
  · simp [hskip, bind, Except.bind]

end

theorem position_existing {n : Nat} {index : Int} (h : 0 ≤ index ∧ index < n) :
    position n index = .ok index.toNat :=
  if_pos h

theorem position_past {n : Nat} {index : Int} (h : n ≤ index) :
    position n index = .error .indexError := by
  rw [position, if_neg (by omega), if_neg (by omega)]

theorem cellOf_existing {indices : Int × Int × Int} (h : Existing indices) :
    cellOf indices = .ok (indices.1.toNat, indices.2.1.toNat, indices.2.2.toNat) := by
  obtain ⟨hcpu, hband, hbytes⟩ := h
  have hband' : 0 ≤ indices.2.1 ∧ indices.2.1 < (N_BANDWDITH_LEVELS.toNat : Int) := hband
  simp only [cellOf, position_existing hcpu, position_existing hband', position_existing hbytes,
    bind, Except.bind, pure, Except.pure]

theorem cellOf_past {i j k : Int} (hi : 0 ≤ i ∧ i < N_CPU_LOAD_LEVELS)
    (hj : 0 ≤ j ∧ j < N_BANDWDITH_LEVELS) (hk : N_BYTECOUNTING_LEVELS ≤ k) :
    cellOf (i, j, k) = .error .indexError := by
  have hj' : 0 ≤ j ∧ j < (N_BANDWDITH_LEVELS.toNat : Int) := hj
  simp only [cellOf, position_existing hi, position_existing hj', position_past hk, bind,
    Except.bind]

theorem cpuLoadLevel_mem {q : ℚ} (hlow : 0 ≤ q) (hhigh : q ≤ 1) :
    0 ≤ cpuLoadLevel q ∧ cpuLoadLevel q < N_CPU_LOAD_LEVELS := by
  have hnonneg : 0 ≤ q * 100 / 10 := by positivity
  rw [cpuLoadLevel, MachineInt.truncate_of_nonneg hnonneg]
  constructor
  · exact Int.floor_nonneg.mpr hnonneg
  · rw [Int.floor_lt]
    norm_num [N_CPU_LOAD_LEVELS]
    linarith

theorem bandwidthLevel_mem {q : ℚ} (hlow : 0 ≤ q) :
    0 ≤ bandwidthLevel q ∧ bandwidthLevel q < N_BANDWDITH_LEVELS := by
  unfold bandwidthLevel
  split
  · have hnonneg : 0 ≤ q / 5 := by positivity
    rw [MachineInt.truncate_of_nonneg hnonneg]
    refine ⟨Int.floor_nonneg.mpr hnonneg, ?_⟩
    rw [Int.floor_lt]
    norm_num [N_BANDWDITH_LEVELS]
    linarith
  · split
    · have hnonneg : 0 ≤ q / 100 + 19 := by positivity
      rw [MachineInt.truncate_of_nonneg hnonneg]
      refine ⟨Int.floor_nonneg.mpr hnonneg, ?_⟩
      rw [Int.floor_lt]
      norm_num [N_BANDWDITH_LEVELS]
      linarith
    · decide

theorem cpuLoadLevelOf_finite (q : ℚ) : cpuLoadLevelOf (.finite q) = .ok (cpuLoadLevel q) := rfl

theorem bandwidthLevelOf_finite (q : ℚ) : bandwidthLevelOf (.finite q) = .ok (bandwidthLevel q) := by
  unfold bandwidthLevelOf bandwidthLevel
  by_cases hlow : q < 100
  · simp [hlow, PyFloat.toInt]
  · by_cases hmid : q < 1000
    · simp [hlow, hmid, PyFloat.toInt]
    · simp [hlow, hmid]

theorem printed_positive {x : PyFloat} (h : Positive x) : Positive x.printed := by
  rcases h with rfl | ⟨q, hq, rfl⟩
  · exact .inl rfl
  · refine .inr ⟨rounded q, rounded_pos hq, ?_⟩
    rw [PyFloat.printed, if_neg hq.ne', if_neg hq.not_gt]

theorem not_positive_zero : ¬ Positive (.finite 0) := by
  rintro (h | ⟨q, hq, h⟩)
  · contradiction
  · rw [PyFloat.finite.injEq] at h
    exact hq.ne h

theorem printed_load {q : ℚ} (hlow : 0 ≤ q) (hhigh : q ≤ 1) :
    ∃ r, 0 ≤ r ∧ r ≤ 1 ∧ (PyFloat.finite q).printed = .finite r := by
  rcases hlow.eq_or_lt with rfl | hpos
  · exact ⟨0, le_refl 0, zero_le_one, rfl⟩
  · refine ⟨rounded q, (rounded_pos hpos).le, rounded_le_one hpos hhigh, ?_⟩
    rw [PyFloat.printed, if_neg hpos.ne', if_neg hpos.not_gt]

theorem indicesOf_measured {q : ℚ} {bandwidth : PyFloat} (hlow : 0 ≤ q) (hhigh : q ≤ 1)
    (hbandwidth : Positive bandwidth) (bytecounting : Nat) :
    ∃ i j, indicesOf (.finite q) bandwidth bytecounting =
        .ok (i, j, ((bytecounting / 10 : Nat) : Int)) ∧
      (0 ≤ i ∧ i < N_CPU_LOAD_LEVELS) ∧ (0 ≤ j ∧ j < N_BANDWDITH_LEVELS) := by
  have hlevel : bytecountingLevel ((bytecounting : Int) : ℚ) = (bytecounting / 10 : Nat) := by
    rw [bytecountingLevel, Int.cast_natCast]
    exact MachineInt.truncate_natCast_div bytecounting 10
  have hband : ∃ j, bandwidthLevelOf bandwidth = .ok j ∧ 0 ≤ j ∧ j < N_BANDWDITH_LEVELS := by
    rcases hbandwidth with rfl | ⟨b, hb, rfl⟩
    · exact ⟨28, rfl, by decide⟩
    · exact ⟨_, bandwidthLevelOf_finite b, bandwidthLevel_mem hb.le⟩
  obtain ⟨j, hj, hmem⟩ := hband
  refine ⟨cpuLoadLevel q, j, ?_, cpuLoadLevel_mem hlow hhigh, hmem⟩
  simp only [indicesOf, cpuLoadLevelOf_finite, hj, hlevel, bind, Except.bind, pure, Except.pure]

theorem name_eq_LZO_iff (compressor : Compressor) :
    compressor.name = ascii "LZO" ↔ compressor = .LZO := by
  cases compressor <;> decide

theorem compress_of_le {call : Call} (h : getBytecounting call.inData ≤ 100) :
    ∃ compressionRate compressionRatio, compress call =
      some (written call.currentCompressor.name (intText call.currentCompressionLevel) call.cpuLoad
        call.availableBandwidth compressionRate compressionRatio (getBytecounting call.inData)) := by
  unfold compress written
  dsimp only
  rw [if_neg (by omega)]
  split <;> exact ⟨_, _, rfl⟩

section

variable {call : Call} (rate ratio : PyFloat)

/-- The row of a call, with the rate and the ratio that are written. -/
def rowOf (call : Call) (rate ratio : PyFloat) : List ByteString :=
  written call.currentCompressor.name (intText call.currentCompressionLevel) call.cpuLoad
    call.availableBandwidth rate ratio (getBytecounting call.inData)

theorem locate_skipped
    (h : call.currentCompressor = .LZO ∨ call.availableBandwidth = .finite 0) :
    locate (rowOf call rate ratio) = .ok none := by
  rw [rowOf, locate_written, if_pos]
  rcases h with hlzo | hzero
  · exact .inl ((name_eq_LZO_iff _).mpr hlzo)
  · refine .inr (.inr ?_)
    rw [hzero]
    rfl

/-- A row that is not skipped is looked for under levels that exist, but for that of the
bytecounting. -/
theorem locate_kept (h : call.Measured) (hmany : getBytecounting call.inData ≤ 100)
    (hlzo : call.currentCompressor ≠ .LZO) (hzero : call.availableBandwidth ≠ .finite 0) :
    ∃ (i j : Int) (compressor : ByteString) (transmissionRate : PyFloat),
      (0 ≤ i ∧ i < N_CPU_LOAD_LEVELS) ∧ (0 ≤ j ∧ j < N_BANDWDITH_LEVELS) ∧
      locate (rowOf call rate ratio) =
        (cellOf (i, j, ((getBytecounting call.inData / 10 : Nat) : Int))).map fun cell =>
          some ⟨(i, j, ((getBytecounting call.inData / 10 : Nat) : Int)), cell, compressor,
            transmissionRate⟩ := by
  have hprinted := printed_positive (h.availableBandwidth.resolve_left hzero)
  have hkept : ¬ (call.currentCompressor.name = ascii "LZO" ∨
      100 < getBytecounting call.inData ∨ call.availableBandwidth.printed = .finite 0) := by
    rintro (hname | hlarge | hnone)
    · exact hlzo ((name_eq_LZO_iff _).mp hname)
    · omega
    · exact not_positive_zero (hnone ▸ hprinted)
  obtain ⟨q, hlow, hhigh, hload⟩ := h.cpuLoad
  obtain ⟨r, hrlow, hrhigh, hr⟩ := printed_load hlow hhigh
  obtain ⟨i, j, hindices, hi, hj⟩ :=
    indicesOf_measured hrlow hrhigh hprinted (getBytecounting call.inData)
  refine ⟨i, j, readName call.currentCompressor.name (intText call.currentCompressionLevel),
    (call.availableBandwidth.printed.min rate.printed).mul ratio.printed, hi, hj, ?_⟩
  rw [rowOf, locate_written, if_neg hkept, hload, hr, hindices]
  rfl

end

/-- A row has an existing place or is skipped, but for a bytecounting of a hundred. -/
theorem row_sound_iff {call : Call} (h : call.Measured) :
    (∀ row, compress call = some row → ∃ found, locate row = .ok found ∧
      ∀ l ∈ found, Existing l.indices) ↔
    (getBytecounting call.inData = 100 →
      call.currentCompressor = .LZO ∨ call.availableBandwidth = .finite 0) := by
  by_cases hmany : 100 < getBytecounting call.inData
  · have hnone : compress call = none := if_pos hmany
    rw [hnone]
    exact iff_of_true (by simp) fun heq => by omega
  obtain ⟨rate, ratio, hrow⟩ := compress_of_le (Nat.not_lt.mp hmany)
  simp only [hrow, Option.some.injEq, forall_eq']
  by_cases hskip : call.currentCompressor = .LZO ∨ call.availableBandwidth = .finite 0
  · exact iff_of_true ⟨none, locate_skipped rate ratio hskip, by simp⟩ fun _ => hskip
  obtain ⟨hlzo, hzero⟩ := not_or.mp hskip
  obtain ⟨i, j, compressor, transmissionRate, hi, hj, hlocate⟩ :=
    locate_kept rate ratio h (Nat.not_lt.mp hmany) hlzo hzero
  rw [rowOf] at hlocate
  by_cases hhundred : getBytecounting call.inData = 100
  · have hpast : cellOf (i, j, ((getBytecounting call.inData / 10 : Nat) : Int)) =
        .error .indexError := cellOf_past hi hj (by rw [hhundred]; decide)
    rw [hpast] at hlocate
    refine iff_of_false ?_ fun hall => hskip (hall hhundred)
    rintro ⟨found, hfound, -⟩
    rw [hlocate] at hfound
    contradiction
  · have hexisting : Existing (i, j, ((getBytecounting call.inData / 10 : Nat) : Int)) := by
      refine ⟨hi, hj, ?_⟩
      simp only [N_BYTECOUNTING_LEVELS]
      omega
    rw [cellOf_existing hexisting] at hlocate
    refine iff_of_true ⟨_, hlocate, ?_⟩ fun heq => absurd heq hhundred
    intro l hl
    rw [← Option.some.inj hl]
    exact hexisting

/-- The parser is sound on a log exactly if no row with a bytecounting of a hundred is left that it
does not skip. -/
theorem sound_log_iff {calls : List Call} (h : ∀ call ∈ calls, call.Measured) :
    Sound (log calls) ↔ ∀ call ∈ calls, getBytecounting call.inData = 100 →
      call.currentCompressor = .LZO ∨ call.availableBandwidth = .finite 0 := by
  rw [sound_iff, reader_log]
  constructor
  · intro hrows call hcall
    exact (row_sound_iff (h call hcall)).mp fun row hrow =>
      hrows row (List.mem_filterMap.mpr ⟨call, hcall, hrow⟩)
  · intro hcalls row hrow
    obtain ⟨call, hcall, hrow⟩ := List.mem_filterMap.mp hrow
    exact (row_sound_iff (h call hcall)).mpr (hcalls call hcall) row hrow

def hundredValues : ByteString := (List.range 2560).map fun i => BitVec.ofNat 8 (i % 100)

/-- A call that compresses a chunk with the level that zlib starts with. -/
def zlibCall (inData : ByteString) : Call :=
  ⟨inData, .ZLIB, 6, .finite (1 / 2), .finite 50, .finite 80, .finite 3⟩

@[simp] theorem zlibCall_inData (inData : ByteString) : (zlibCall inData).inData = inData := rfl

theorem zlibCall_measured (inData : ByteString) : (zlibCall inData).Measured :=
  ⟨⟨1 / 2, by norm_num, by norm_num, rfl⟩, .inr (.inr ⟨50, by norm_num, rfl⟩),
    .inr ⟨80, by norm_num, rfl⟩, .inr ⟨3, by norm_num, rfl⟩⟩

theorem sound_log_zeros : Sound (log [zlibCall (List.replicate 4096 0)]) := by
  have hmeasured : ∀ call ∈ [zlibCall (List.replicate 4096 0)], call.Measured := by
    intro call hcall
    rw [List.mem_singleton.mp hcall]
    exact zlibCall_measured _
  apply (sound_log_iff hmeasured).mpr
  intro call hcall
  rw [List.mem_singleton.mp hcall]
  have hone : getBytecounting (List.replicate 4096 0) = 1 :=
    AutoCompCompressor.getBytecounting_zeros
  rw [zlibCall_inData, hone]
  exact fun heq => absurd heq (by decide)

/-- Each of the three parts that are looked at holds them all. The occurrences are counted as the
source does, in one pass over the part. -/
theorem bytecounting_hundredValues : ∀ offset ∈ [256, 1152, 2048],
    bytecounting ((hundredValues.drop offset).take 256) = 100 := by
  intro offset hoffset
  have hcounted : ∀ offset ∈ [256, 1152, 2048],
      Functions.bytecounting ((hundredValues.drop offset).take 256) = some 100 := by
    decide +kernel
  have hlength : ((hundredValues.drop offset).take 256).length < 2 ^ 31 := by
    rw [List.length_take]
    omega
  have hsome := Functions.bytecounting_eq_some hlength
  rw [hcounted offset hoffset] at hsome
  exact (Option.some.inj hsome).symm

theorem getBytecounting_hundredValues : getBytecounting hundredValues = 100 := by
  have hlength : hundredValues.length = 2560 := by
    rw [hundredValues, List.length_map, List.length_range]
  have hsize : AutoCompCompressor.subChunkProportion.scaled 2560 = 256 := by
    decide
  have hpositions : ∀ relativePosition ∈ AutoCompCompressor.relativeSubChunkPositions,
      relativePosition.scaled 2560 ∈ [256, 1152, 2048] := by
    decide
  apply AutoCompCompressor.getBytecounting_eq
  intro relativePosition hmem
  rw [hlength, hsize]
  exact bytecounting_hundredValues _ (hpositions relativePosition hmem)

/-- The writer takes a chunk with a bytecounting of a hundred, the reader keeps its row, and the table
has no level for it. -/
theorem not_sound_hundred :
    ¬ ∀ calls : List Call, (∀ call ∈ calls, call.Measured) → Sound (log calls) := by
  intro h
  have hsound := h [zlibCall hundredValues] (by
    intro call hcall
    rw [List.mem_singleton.mp hcall]
    exact zlibCall_measured _)
  rw [sound_iff, reader_log] at hsound
  have hrow := (row_sound_iff (zlibCall_measured hundredValues)).mp fun row hrow =>
    hsound row (List.mem_filterMap.mpr ⟨_, List.mem_singleton_self _, hrow⟩)
  rw [zlibCall_inData] at hrow
  rcases hrow getBytecounting_hundredValues with hlzo | hzero
  · exact Compressor.noConfusion hlzo
  · have hfifty : (50 : ℚ) = 0 := PyFloat.finite.inj hzero
    norm_num at hfifty

end AutoCompPerformanceDataParser

end Autocomp

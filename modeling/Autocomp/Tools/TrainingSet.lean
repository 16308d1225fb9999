import Autocomp.Io.SynchronizedFile
import Autocomp.Lib.SinglePrecision
import Autocomp.Tools.TrainingLog
import Autocomp.Utils.DecisionTree.Saving

/-!
# From the training requests to the training set

Several requests train at a time: each measures its chunks and writes its rows to the one file of the
server. The rows that the parser saves name a compressor for every cell, in the form of the labels
that the decision tree is loaded with.
-/

namespace Autocomp

open ByteMemory FileStream TextStream

namespace TrainingCompressor

/-- The quotient of two integers that are converted to a `float`. -/
def quotient (dividend divisor : Nat) : PyFloat :=
  if divisor = 0 then if dividend = 0 then .nan else .inf
  else
    match SinglePrecision.nearest (SinglePrecision.round dividend / SinglePrecision.round divisor) with
    | some q => .finite q
    | none => .inf

/-- A call of `compress` with what it reads: the chunk, the compressor that is set and the
state of the resources. If the compressor does not throw, it leaves a number of bytes
after some microseconds. -/
structure Trial where
  inData : ByteString
  currentCompressor : Compressor
  currentCompressionLevel : Int
  cpuLoad : PyFloat
  availableBandwidth : PyFloat
  compressed : Option (Nat × Nat)

namespace Trial

/-- The rate in bits per microsecond and the ratio, or what a copy has instead. -/
def call (t : Trial) : Option Call :=
  if t.currentCompressor = .COPY then
    some ⟨t.inData, t.currentCompressor, t.currentCompressionLevel, t.cpuLoad, t.availableBandwidth,
      t.availableBandwidth, .finite 1⟩
  else
    t.compressed.map fun (size, compressionTime) =>
      ⟨t.inData, t.currentCompressor, t.currentCompressionLevel, t.cpuLoad, t.availableBandwidth,
        quotient (8 * size % 2 ^ 64) compressionTime, quotient t.inData.length size⟩

/-- The row that is written, if the chunk is not found hard to compress and no exception leaves the
call. -/
def row (t : Trial) : Option (List ByteString) := t.call.bind compress

/-- The compressor is one that `setCompressor` has set, the measurements are in their ranges, and a
compressor makes something of a chunk. -/
structure InRange (t : Trial) : Prop where
  configured : ∃ requested, AutomaticCompressionStrategy.setCompressor t.currentCompressor requested =
    .ok (.single t.currentCompressor t.currentCompressionLevel)
  cpuLoad : ∃ q, 0 ≤ q ∧ q ≤ 1 ∧ t.cpuLoad = .finite q
  availableBandwidth : t.availableBandwidth = .finite 0 ∨ Positive t.availableBandwidth
  chunk : 0 < t.inData.length ∧ t.inData.length < 2 ^ 60
  compressed : ∀ size compressionTime, t.compressed = some (size, compressionTime) →
    0 < size ∧ size < 2 ^ 60 ∧ compressionTime < 2 ^ 63

/-- A row is written, and the parser does not skip it. -/
structure Kept (t : Trial) : Prop where
  written : t.call ≠ none
  easy : getBytecounting t.inData ≤ 100
  compressor : t.currentCompressor ≠ .LZO
  bandwidth : t.availableBandwidth ≠ .finite 0

def label (t : Trial) : ByteString :=
  AutoCompPerformanceDataParser.readName t.currentCompressor.name (intText t.currentCompressionLevel)

end Trial

theorem quotient_positive {dividend divisor : Nat} (hdividend : 0 < dividend)
    (hdivisor : divisor < 2 ^ 63) : Positive (quotient dividend divisor) := by
  unfold quotient
  split
  · rw [if_neg hdividend.ne']
    exact .inl rfl
  · rename_i hne
    have hpos := SinglePrecision.round_pos hdividend
    have hround := SinglePrecision.round_pos (Nat.pos_of_ne_zero hne)
    have hle : SinglePrecision.round divisor ≤ 2 ^ 64 := by
      have hle := SinglePrecision.round_le divisor
      omega
    have hleast : (2 : ℚ) ^ (-126 : Int) ≤
        SinglePrecision.round dividend / SinglePrecision.round divisor := by
      have hone : (1 : ℚ) ≤ SinglePrecision.round dividend := by exact_mod_cast hpos
      have hlarge : (SinglePrecision.round divisor : ℚ) ≤ 2 ^ 64 := by exact_mod_cast hle
      have hdivisor : (0 : ℚ) < SinglePrecision.round divisor := by exact_mod_cast hround
      rw [le_div_iff₀ hdivisor]
      calc (2 : ℚ) ^ (-126 : Int) * SinglePrecision.round divisor ≤ 2 ^ (-126 : Int) * 2 ^ 64 :=
            mul_le_mul_of_nonneg_left hlarge (by positivity)
        _ ≤ 1 := by norm_num
        _ ≤ _ := hone
    split
    · rename_i q hq
      exact .inr ⟨q, SinglePrecision.nearest_pos hleast hq, rfl⟩
    · exact .inl rfl

theorem Trial.InRange.measured {t : Trial} {call : Call} (h : t.InRange) (hcall : t.call = some call)
    (hzero : t.availableBandwidth ≠ .finite 0) : call.Measured := by
  have hbandwidth := h.availableBandwidth.resolve_left hzero
  unfold Trial.call at hcall
  split at hcall
  · rw [← Option.some.inj hcall]
    exact ⟨h.cpuLoad, h.availableBandwidth, hbandwidth, .inr ⟨1, one_pos, rfl⟩⟩
  · obtain ⟨⟨size, compressionTime⟩, hsize, rfl⟩ := Option.map_eq_some_iff.mp hcall
    obtain ⟨hpos, hlt, htime⟩ := h.compressed size compressionTime hsize
    refine ⟨h.cpuLoad, h.availableBandwidth, quotient_positive ?_ htime,
      quotient_positive h.chunk.1 (by omega)⟩
    omega

theorem Positive.min {x y : PyFloat} (hx : Positive x) (hy : Positive y) : Positive (x.min y) := by
  unfold PyFloat.min
  split
  · exact hy
  · exact hx

theorem Positive.mul {x y : PyFloat} (hx : Positive x) (hy : Positive y) : Positive (x.mul y) := by
  rcases hx with rfl | ⟨p, hp, rfl⟩ <;> rcases hy with rfl | ⟨q, hq, rfl⟩
  · exact .inl rfl
  · left
    simp [PyFloat.mul, PyFloat.sign, hq]
  · left
    simp [PyFloat.mul, PyFloat.sign, hp]
  · exact .inr ⟨p * q, mul_pos hp hq, rfl⟩

theorem Positive.add {x y : PyFloat} (hx : Positive x) (hy : Positive y) : Positive (x.add y) := by
  rcases hx with rfl | ⟨p, hp, rfl⟩ <;> rcases hy with rfl | ⟨q, hq, rfl⟩
  · exact .inl rfl
  · exact .inl rfl
  · exact .inl rfl
  · exact .inr ⟨p + q, add_pos hp hq, rfl⟩

theorem Positive.div {x : PyFloat} (hx : Positive x) {n : Nat} (hn : 0 < n) :
    Positive (x.div n) := by
  rcases hx with rfl | ⟨q, hq, rfl⟩
  · exact .inl rfl
  · exact .inr ⟨q / n, div_pos hq (Nat.cast_pos.mpr hn), rfl⟩

theorem Positive.lt {x : PyFloat} (hx : Positive x) : PyFloat.negInf.lt x = true := by
  rcases hx with rfl | ⟨q, -, rfl⟩ <;> rfl

end TrainingCompressor

namespace AutoCompPerformanceDataParser

open PerformanceData TrainingCompressor

/-- What the rows of a compressor in a cell have been summed up to. -/
structure Plausible (compressorData : CompressorData) : Prop where
  count : 0 < compressorData.count
  transmissionRate : Positive compressorData.transmissionRate

theorem update_plausible {rate : PyFloat} (hrate : Positive rate) {old : Option CompressorData}
    (hold : ∀ compressorData ∈ old, Plausible compressorData) : Plausible (update rate old) := by
  cases old with
  | none => exact ⟨Nat.one_pos, hrate⟩
  | some compressorData =>
    obtain ⟨hcount, hlast⟩ := hold compressorData rfl
    refine ⟨Nat.succ_pos _, ?_⟩
    unfold update
    dsimp only
    split
    · rename_i hmany
      have hlarge : (0 : ℚ) < compressorData.count - 1 := by
        have htwo : 1 < compressorData.count := by omega
        rw [sub_pos]
        exact_mod_cast htwo
      exact ((hlast.mul (.inr ⟨_, hlarge, rfl⟩)).add hrate).div (Nat.succ_pos _)
    · exact ((hlast.mul (.inr ⟨_, Nat.cast_pos.mpr hcount, rfl⟩)).add hrate).div (Nat.succ_pos _)

theorem updateAll_plausible {transmissionRates : List PyFloat}
    (h : ∀ rate ∈ transmissionRates, Positive rate) :
    ∀ compressorData ∈ updateAll transmissionRates none, Plausible compressorData := by
  induction transmissionRates using List.reverseRecOn with
  | nil =>
    intro compressorData hnone
    contradiction
  | append_singleton rates rate ih =>
    rw [updateAll_concat]
    intro compressorData hsome
    rw [← Option.some.inj (Option.mem_def.mp hsome)]
    apply update_plausible
    · exact h rate (by simp)
    · exact ih fun other hother => h other (by simp [hother])

theorem updateAll_eq_none_iff {transmissionRates : List PyFloat} :
    updateAll transmissionRates none = none ↔ transmissionRates = [] := by
  cases transmissionRates using List.reverseRecOn with
  | nil => exact iff_of_true rfl rfl
  | append_singleton rates rate =>
    rw [updateAll_concat]
    exact iff_of_false (Option.some_ne_none _) (by simp)

theorem mem_ratesOf {rows : List (List ByteString)} {cell : Nat × Nat × Nat} {compressor : ByteString}
    {rate : PyFloat} : rate ∈ rates rows cell compressor ↔
      ∃ l ∈ observed rows, l.cell = cell ∧ l.compressor = compressor ∧ l.transmissionRate = rate := by
  simp only [rates, ratesOf, List.mem_map, List.mem_filter, decide_eq_true_eq, and_assoc]

section

variable {rows : List (List ByteString)} {data : PerformanceData}
  (hparse : parse rows = .ok data)
  (hpositive : ∀ l ∈ observed rows, Positive l.transmissionRate)

include hparse hpositive

theorem item_observed {cell : Nat × Nat × Nat} {item : ByteString × CompressorData}
    (hitem : item ∈ (data.data cell).items) :
    Plausible item.2 ∧ ∃ l ∈ observed rows, l.cell = cell ∧ l.compressor = item.1 := by
  have hget := ((data.data cell).mem_items_iff item.1 item.2).mp hitem
  rw [parse_get hparse] at hget
  constructor
  · refine updateAll_plausible ?_ item.2 hget
    intro rate hrate
    obtain ⟨l, hl, -, -, rfl⟩ := mem_ratesOf.mp hrate
    exact hpositive l hl
  · have hne : rates rows cell item.1 ≠ [] := by
      intro hnil
      rw [updateAll_eq_none_iff.mpr hnil] at hget
      contradiction
    obtain ⟨rate, hrate⟩ := List.exists_mem_of_ne_nil _ hne
    obtain ⟨l, hl, hcell, hcompressor, -⟩ := mem_ratesOf.mp hrate
    exact ⟨l, hl, hcell, hcompressor⟩

omit hpositive in
theorem items_ne_nil {l : Located} (hl : l ∈ observed rows) : (data.data l.cell).items ≠ [] := by
  have hrates : rates rows l.cell l.compressor ≠ [] :=
    List.ne_nil_of_mem (mem_ratesOf.mpr ⟨l, hl, rfl, rfl, rfl⟩)
  have hget := parse_get hparse l.cell l.compressor
  obtain ⟨compressorData, hsome⟩ :=
    Option.ne_none_iff_exists'.mp (updateAll_eq_none_iff.not.mpr hrates)
  rw [hsome] at hget
  exact List.ne_nil_of_mem (((data.data l.cell).mem_items_iff _ _).mpr hget)

/-- The best compressor of a cell is one with a row there. -/
theorem best_observed {cell : Nat × Nat × Nat} (hne : (data.data cell).items ≠ []) :
    ∃ l ∈ observed rows, l.cell = cell ∧ l.compressor = getBestCompressor (data.data cell) := by
  obtain ⟨hfound, -, hbest⟩ := foldl_better (data.data cell).items ([], .negInf)
  rcases hfound with hfound | ⟨item, hitem, hfound⟩
  · -- every item is better than what the loop starts from
    exfalso
    obtain ⟨item, hitem⟩ := List.exists_mem_of_ne_nil _ hne
    have hworse := hbest item hitem
    rw [hfound] at hworse
    have hlt := (item_observed hparse hpositive hitem).1.transmissionRate.lt
    rw [hworse] at hlt
    contradiction
  · obtain ⟨-, l, hl, hcell, hcompressor⟩ := item_observed hparse hpositive hitem
    refine ⟨l, hl, hcell, ?_⟩
    rw [getBestCompressor, hfound, hcompressor]

end

end AutoCompPerformanceDataParser

namespace PerformanceData

/-- The rows that `save` writes, one for each cell with data, in the order of the levels. -/
def save (data : PerformanceData) : List (List ByteString) :=
  (List.range N_CPU_LOAD_LEVELS).flatMap fun cpuLevel =>
    (List.range N_BANDWDITH_LEVELS.toNat).flatMap fun bandwidthLevel =>
      (List.range N_BYTECOUNTING_LEVELS).filterMap fun bytecountingLevel =>
        let compressorsData := data.data (cpuLevel, bandwidthLevel, bytecountingLevel)
        if compressorsData.items = [] then none
        else some [decimal cpuLevel, decimal bandwidthLevel, decimal bytecountingLevel,
          getBestCompressor compressorsData]

def entry (data : PerformanceData) (cell : Nat × Nat × Nat) : List ByteString :=
  [decimal cell.1, decimal cell.2.1, decimal cell.2.2, getBestCompressor (data.data cell)]

theorem mem_save {data : PerformanceData} {row : List ByteString} : row ∈ data.save ↔
    ∃ cell : Nat × Nat × Nat, cell.1 < N_CPU_LOAD_LEVELS ∧ cell.2.1 < N_BANDWDITH_LEVELS.toNat ∧
      cell.2.2 < N_BYTECOUNTING_LEVELS ∧ (data.data cell).items ≠ [] ∧ row = data.entry cell := by
  simp only [save, List.mem_flatMap, List.mem_filterMap, List.mem_range,
    Option.ite_none_left_eq_some, Option.some.injEq]
  constructor
  · rintro ⟨i, hi, j, hj, k, hk, hne, rfl⟩
    exact ⟨(i, j, k), hi, hj, hk, hne, rfl⟩
  · rintro ⟨⟨i, j, k⟩, hi, hj, hk, hne, rfl⟩
    exact ⟨i, hi, j, hj, k, hk, hne, rfl⟩

end PerformanceData

namespace TrainingCompressor

open AutoCompPerformanceDataParser PerformanceData

variable {t : Trial} {call : Call} {row : List ByteString}

/-- The indices of the cell that the row of a trial belongs to. -/
def Trial.indices (t : Trial) : Except PyError (Int × Int × Int) :=
  indicesOf t.cpuLoad.printed t.availableBandwidth.printed (getBytecounting t.inData)

theorem Trial.call_spec (h : t.call = some call) : call.inData = t.inData ∧
    call.currentCompressor = t.currentCompressor ∧
    call.currentCompressionLevel = t.currentCompressionLevel ∧ call.cpuLoad = t.cpuLoad ∧
    call.availableBandwidth = t.availableBandwidth := by
  unfold Trial.call at h
  split at h
  · rw [← Option.some.inj h]
    exact ⟨rfl, rfl, rfl, rfl, rfl⟩
  · obtain ⟨⟨size, compressionTime⟩, -, rfl⟩ := Option.map_eq_some_iff.mp h
    exact ⟨rfl, rfl, rfl, rfl, rfl⟩

theorem compress_measured (hcall : call.Measured) (hzero : call.availableBandwidth ≠ .finite 0)
    (h : compress call = some row) : ∃ rate ratio, Positive rate ∧ Positive ratio ∧
      row = rowOf call rate ratio := by
  unfold compress at h
  dsimp only at h
  split at h
  · contradiction
  · rw [Option.some.injEq] at h
    by_cases hcopy : call.currentCompressor = .COPY
    · refine ⟨_, _, hcall.availableBandwidth.resolve_left hzero, .inr ⟨1, one_pos, rfl⟩, ?_⟩
      rw [← h, if_neg (not_not_intro hcopy)]
      rfl
    · refine ⟨_, _, hcall.compressionRate, hcall.compressionRatio, ?_⟩
      rw [← h, if_pos hcopy]
      rfl

/-- Where the row of a trial is put. -/
structure Placed (t : Trial) (l : Located) : Prop where
  kept : t.Kept
  indices : t.indices = .ok l.indices
  existing : Existing l.indices
  cell : l.cell = (l.indices.1.toNat, l.indices.2.1.toNat, l.indices.2.2.toNat)
  compressor : l.compressor = t.label
  transmissionRate : Positive l.transmissionRate

/-- No row is written of a chunk that the table has no level for, or the parser skips it. -/
def Trial.Fits (t : Trial) : Prop :=
  getBytecounting t.inData = 100 → t.currentCompressor = .LZO ∨ t.availableBandwidth = .finite 0

theorem Trial.InRange.located (h : t.InRange) (hfits : t.Fits) (hrow : t.row = some row) :
    ∃ found, locate row = .ok found ∧ (∀ l ∈ found, Placed t l) ∧ (t.Kept → found ≠ none) := by
  obtain ⟨call, hcall, hcompress⟩ := Option.bind_eq_some_iff.mp hrow
  obtain ⟨hdata, hcompressor, hlevel, hload, hbandwidth⟩ := Trial.call_spec hcall
  have heasy : getBytecounting call.inData ≤ 100 := by
    by_contra hmany
    rw [compress, if_pos (not_le.mp hmany)] at hcompress
    contradiction
  by_cases hskip : call.currentCompressor = .LZO ∨ call.availableBandwidth = .finite 0
  · obtain ⟨rate, ratio, hwritten⟩ := compress_of_le heasy
    rw [hwritten, Option.some.injEq] at hcompress
    refine ⟨none, ?_, by simp, fun hkept => ?_⟩
    · rw [← hcompress]
      exact locate_skipped rate ratio hskip
    · rw [hcompressor, hbandwidth] at hskip
      rcases hskip with hlzo | hzero
      · exact absurd hlzo hkept.compressor
      · exact absurd hzero hkept.bandwidth
  · obtain ⟨hlzo, hzero⟩ := not_or.mp hskip
    have hmeasured := h.measured hcall (hbandwidth ▸ hzero)
    obtain ⟨rate, ratio, hrate, hratio, rfl⟩ := compress_measured hmeasured hzero hcompress
    have hprinted := printed_positive (hmeasured.availableBandwidth.resolve_left hzero)
    have hkept : ¬ (call.currentCompressor.name = ascii "LZO" ∨
        100 < getBytecounting call.inData ∨ call.availableBandwidth.printed = .finite 0) := by
      rintro (hname | hlarge | hnone)
      · exact hlzo ((name_eq_LZO_iff _).mp hname)
      · omega
      · exact not_positive_zero (hnone ▸ hprinted)
    obtain ⟨q, hlow, hhigh, hq⟩ := h.cpuLoad
    obtain ⟨r, hrlow, hrhigh, hr⟩ := printed_load hlow hhigh
    obtain ⟨i, j, hindices, hi, hj⟩ :=
      indicesOf_measured hrlow hrhigh hprinted (getBytecounting call.inData)
    have hexisting : Existing (i, j, ((getBytecounting call.inData / 10 : Nat) : Int)) := by
      have hne : getBytecounting call.inData ≠ 100 := by
        intro heq
        rw [hcompressor, hbandwidth] at hskip
        exact hskip (hfits (hdata ▸ heq))
      refine ⟨hi, hj, ?_⟩
      simp only [N_BYTECOUNTING_LEVELS]
      omega
    have hall : t.indices = .ok (i, j, ((getBytecounting call.inData / 10 : Nat) : Int)) := by
      rw [Trial.indices, hq, hr, ← hbandwidth, ← hdata]
      exact hindices
    have hlocate : locate (rowOf call rate ratio) =
        .ok (some ⟨(i, j, ((getBytecounting call.inData / 10 : Nat) : Int)),
          (i.toNat, j.toNat, getBytecounting call.inData / 10),
          readName call.currentCompressor.name (intText call.currentCompressionLevel),
          (call.availableBandwidth.printed.min rate.printed).mul ratio.printed⟩) := by
      rw [rowOf, locate_written, if_neg hkept, hload, hq, hr, hindices]
      simp only [bind, Except.bind, cellOf_existing hexisting, pure, Except.pure, Int.toNat_natCast]
    refine ⟨_, hlocate, ?_, fun _ => Option.some_ne_none _⟩
    intro l hl
    rw [← Option.some.inj hl]
    refine ⟨⟨by rw [hcall]; simp, hdata ▸ heasy, hcompressor ▸ hlzo, hbandwidth ▸ hzero⟩, hall,
      hexisting, rfl, ?_, (hprinted.min (printed_positive hrate)).mul (printed_positive hratio)⟩
    rw [Trial.label, ← hcompressor, ← hlevel]

theorem intText_injective {x y : Int} (h : intText x = intText y) : x = y := by
  have hx := PyFloat.int_intText x
  rw [h, PyFloat.int_intText] at hx
  exact (Except.ok.inj hx).symm

theorem toLower_intText (x : Int) : (intText x).map PyFloat.toLower = intText x := by
  have hlower : ∀ c ∈ PyFloat.numberChars, PyFloat.toLower c = c := by decide
  calc (intText x).map PyFloat.toLower = (intText x).map id :=
        List.map_congr_left fun c hc => hlower c (PyFloat.intText_mem x c hc)
    _ = intText x := List.map_id _

theorem level_range {c : Compressor} {requested level : Int}
    (h : AutomaticCompressionStrategy.setCompressor c requested = .ok (.single c level)) :
    (c.levels = none ∧ level = -1) ∨
      ∃ l, c.levels = some l ∧ l.minCompressionLevel ≤ level ∧ level ≤ l.maxCompressionLevel := by
  unfold AutomaticCompressionStrategy.setCompressor at h
  cases hlevels : c.levels with
  | none =>
    simp only [hlevels, Except.ok.injEq, AutomaticCompressionStrategy.single.injEq, true_and] at h
    exact .inl ⟨rfl, h.symm⟩
  | some l =>
    right
    refine ⟨l, rfl, ?_⟩
    simp only [hlevels] at h
    split at h
    · simp only [Except.ok.injEq, AutomaticCompressionStrategy.single.injEq, true_and] at h
      rw [← h]
      cases c <;> simp only [Compressor.levels, reduceCtorEq, Option.some.injEq] at hlevels <;>
        rw [← hlevels] <;> decide
    · split at h
      · contradiction
      · rename_i hrange
        simp only [Except.ok.injEq, AutomaticCompressionStrategy.single.injEq, true_and] at h
        omega

theorem Trial.InRange.parseCompressor (h : t.InRange) : DecisionTree.parseCompressor t.label =
    some (t.currentCompressor, t.currentCompressionLevel) := by
  obtain ⟨requested, hset⟩ := h.configured
  have hint : -2 ^ 31 ≤ t.currentCompressionLevel ∧ t.currentCompressionLevel < 2 ^ 31 := by
    rcases level_range hset with ⟨-, hlevel⟩ | ⟨l, hl, hlow, hhigh⟩
    · omega
    · cases hc : t.currentCompressor <;> rw [hc] at hl <;>
        simp only [Compressor.levels, reduceCtorEq, Option.some.injEq] at hl <;>
        rw [← hl] at hlow hhigh <;> simp only at hlow hhigh <;> omega
  have hname : (t.currentCompressor.name.map PyFloat.toLower).map toupper =
      t.currentCompressor.name := by
    cases t.currentCompressor <;> decide
  have hone : ascii "-1" = intText (-1) := by decide +kernel
  by_cases hlevel : t.currentCompressionLevel = -1
  · have htext : t.label = DecisionTree.Label.text
        ⟨_, t.currentCompressor, none, hname, fun _ hnone => by contradiction⟩ := by
      simp [Trial.label, readName, hlevel, hone, DecisionTree.Label.text]
    rw [htext, DecisionTree.parseCompressor_text, hlevel]
    rfl
  · have htext : t.label = DecisionTree.Label.text
        ⟨_, t.currentCompressor, some t.currentCompressionLevel, hname,
          fun l hl => Option.some.inj hl ▸ hint⟩ := by
      have hne : intText t.currentCompressionLevel ≠ ascii "-1" := by
        rw [hone]
        exact fun heq => hlevel (intText_injective heq)
      rw [Trial.label, readName, if_neg hne, List.map_append, List.map_append, toLower_intText]
      simp only [DecisionTree.Label.text, List.append_assoc]
      rfl
    rw [htext, DecisionTree.parseCompressor_text]
    rfl

/-- What `AutoCompCompressor` applies to a chunk when the tree names this compressor and
this level. -/
def Trial.applied (t : Trial) : Compressor × Int :=
  (AutomaticCompressionStrategy.autoComp
    fun _ => .lookup t.currentCompressor t.currentCompressionLevel).next.1

theorem Trial.InRange.applied_iff (h : t.InRange) :
    t.applied = (t.currentCompressor, t.currentCompressionLevel) ↔
      t.currentCompressor ≠ .FPC ∧ (t.currentCompressor = .LZMA → t.currentCompressionLevel ≠ 0) := by
  obtain ⟨requested, hset⟩ := h.configured
  have hrange := level_range hset
  unfold Trial.applied AutomaticCompressionStrategy.next
  cases hc : t.currentCompressor <;>
    simp [hc, Compressor.levels, AutomaticCompressionStrategy.hasCompressor] at hrange ⊢ <;>
    omega

/-- The row of the training set for the cell of a trial. -/
def Trial.Saved (t : Trial) (label : ByteString) (row : List ByteString) : Prop :=
  ∃ i j k : Nat, t.indices = .ok (i, j, k) ∧ row = [decimal i, decimal j, decimal k, label]

theorem Placed.saved {l : Located} (h : Placed t l) (data : PerformanceData) :
    t.Saved (getBestCompressor (data.data l.cell)) (data.entry l.cell) := by
  obtain ⟨⟨hi, -⟩, ⟨hj, -⟩, ⟨hk, -⟩⟩ := h.existing
  refine ⟨_, _, _, ?_, rfl⟩
  rw [h.indices, h.cell, Int.toNat_of_nonneg hi, Int.toNat_of_nonneg hj, Int.toNat_of_nonneg hk]

theorem Placed.mem_save {l : Located} (h : Placed t l) {data : PerformanceData}
    (hne : (data.data l.cell).items ≠ []) : data.entry l.cell ∈ data.save := by
  obtain ⟨hi, hj, hk⟩ := h.existing
  refine PerformanceData.mem_save.mpr ⟨l.cell, ?_, ?_, ?_, hne, rfl⟩
  · rw [h.cell]
    exact (Int.toNat_lt hi.1).mpr hi.2
  · rw [h.cell]
    exact (Int.toNat_lt hj.1).mpr hj.2
  · rw [h.cell]
    exact (Int.toNat_lt hk.1).mpr hk.2

def lines (trials : List Trial) : List (List Byte) := trials.filterMap fun t => t.row.map Csv.line

theorem mem_lines {trials : List Trial} {line : List Byte} : line ∈ lines trials ↔
    ∃ t ∈ trials, ∃ row, t.row = some row ∧ Csv.line row = line := by
  simp only [lines, List.mem_filterMap, Option.map_eq_some_iff]

theorem fields_line_row (h : t.row = some row) : Csv.fields (Csv.line row) = row := by
  obtain ⟨call, -, hcompress⟩ := Option.bind_eq_some_iff.mp h
  exact Csv.fields_line (plain_of_compress hcompress)

section

variable {ι Path : Type} [DecidableEq ι] [DecidableEq Path] {trials : ι → List Trial}
  {disk : Disk Path} {filename : Path} {s : SynchronizedFile.State ι Path}

/-- The rows that have been written, in their order. -/
def writtenRows (s : SynchronizedFile.State ι Path) : List (List ByteString) :=
  s.taken.map fun e => Csv.fields e.2

section

variable (hrun : Transition.Reachable SynchronizedFile.step
  (.init (fun i => lines (trials i)) disk filename) s)

include hrun

theorem trial_of_taken {e : ι × List Byte} (he : e ∈ s.taken) :
    ∃ t ∈ trials e.1, ∃ row, t.row = some row ∧ Csv.line row = e.2 := by
  have hcalls := (SynchronizedFile.inv_reachable hrun).calls
  apply mem_lines.mp
  rw [← hcalls e.1]
  apply List.mem_append_left
  exact List.mem_map_of_mem (List.mem_filter.mpr ⟨he, decide_eq_true rfl⟩)

theorem mem_writtenRows (hrow : row ∈ writtenRows s) : ∃ i, ∃ t ∈ trials i, t.row = some row := by
  obtain ⟨e, he, rfl⟩ := List.mem_map.mp hrow
  obtain ⟨t, ht, row, hrow, hline⟩ := trial_of_taken hrun he
  refine ⟨e.1, t, ht, ?_⟩
  rw [← hline, fields_line_row hrow]
  exact hrow

/-- The rows of a request that is through are all written. -/
theorem row_written {i : ι} (hthrough : s.calls i = []) (ht : t ∈ trials i)
    (hrow : t.row = some row) : row ∈ writtenRows s := by
  have hcalls := (SynchronizedFile.inv_reachable hrun).calls
  have hline : Csv.line row ∈ lines (trials i) := mem_lines.mpr ⟨t, ht, row, hrow, rfl⟩
  rw [← hcalls i, hthrough, List.append_nil] at hline
  obtain ⟨e, he, heq⟩ := List.mem_map.mp hline
  refine List.mem_map.mpr ⟨e, (List.mem_filter.mp he).1, ?_⟩
  rw [heq, fields_line_row hrow]

theorem reader_writtenRows (hdone : s.use = .destroyed) : ∃ text,
    s.worker.target.2 filename = some text ∧ Csv.reader text = writtenRows s := by
  have hs := SynchronizedFile.inv_reachable hrun
  have hfile := (AsynchronousBuffer.holds_foldlM (AsynchronousBuffer.holds_opened disk filename)
    hs.sound.target).file
  rw [List.nil_append, hs.destroyed hdone] at hfile
  refine ⟨_, hfile, ?_⟩
  have htext : (s.taken.flatMap fun e => SynchronizedFile.line e.2) = Csv.file (writtenRows s) := by
    rw [Csv.file, writtenRows, List.flatMap_map]
    apply List.flatMap_congr
    intro e he
    obtain ⟨t, -, row, hrow, hline⟩ := trial_of_taken hrun he
    rw [← hline, fields_line_row hrow]
    rfl
  rw [htext]
  apply Csv.reader_file
  intro row hrow
  obtain ⟨i, t, -, hrow⟩ := mem_writtenRows hrun hrow
  obtain ⟨call, -, hcompress⟩ := Option.bind_eq_some_iff.mp hrow
  exact plain_of_compress hcompress

end

/-- Whatever the order in which the requests write, the parser reads the file, and the training set
has a row for a cell exactly if a trial with these levels has been kept. Its label is that of such a
trial, and the decision tree reads it as the compressor and the level of the trial, which the
adaptive strategy applies unless they are FPC or the level 0 of LZMA. -/
theorem training_set (hrange : ∀ i, ∀ t ∈ trials i, t.InRange ∧ t.Fits)
    (hrun : Transition.Reachable SynchronizedFile.step
      (.init (fun i => lines (trials i)) disk filename) s)
    (hdone : s.use = .destroyed) :
    ∃ text data, s.worker.target.2 filename = some text ∧ parse (Csv.reader text) = .ok data ∧
      (∀ row ∈ data.save, ∃ i, ∃ t ∈ trials i, t.Kept ∧ t.Saved t.label row ∧
        DecisionTree.parseCompressor t.label =
          some (t.currentCompressor, t.currentCompressionLevel) ∧
        (t.applied = (t.currentCompressor, t.currentCompressionLevel) ↔
          t.currentCompressor ≠ .FPC ∧
            (t.currentCompressor = .LZMA → t.currentCompressionLevel ≠ 0))) ∧
      ∀ i, s.calls i = [] → ∀ t ∈ trials i, t.Kept → ∃ label, ∃ row ∈ data.save, t.Saved label row := by
  obtain ⟨text, hfile, hrows⟩ := reader_writtenRows hrun hdone
  have hplaced : ∀ row ∈ writtenRows s, ∃ i, ∃ t ∈ trials i, ∃ found, t.row = some row ∧
      locate row = .ok found ∧ (∀ l ∈ found, Placed t l) ∧ (t.Kept → found ≠ none) := by
    intro row hrow
    obtain ⟨i, t, ht, hrow⟩ := mem_writtenRows hrun hrow
    obtain ⟨hin, hfits⟩ := hrange i t ht
    obtain ⟨found, hfound⟩ := hin.located hfits hrow
    exact ⟨i, t, ht, found, hrow, hfound⟩
  have hobserved : ∀ l ∈ observed (writtenRows s), ∃ i, ∃ t ∈ trials i, Placed t l := by
    intro l hl
    obtain ⟨row, hrow, hlocate⟩ := mem_observed.mp hl
    obtain ⟨i, t, ht, found, -, hfound, hall, -⟩ := hplaced row hrow
    rw [hlocate, Except.ok.injEq] at hfound
    exact ⟨i, t, ht, hall l hfound.symm⟩
  have hpositive : ∀ l ∈ observed (writtenRows s), Positive l.transmissionRate := by
    intro l hl
    obtain ⟨i, t, -, hplace⟩ := hobserved l hl
    exact hplace.transmissionRate
  obtain ⟨data, hparse⟩ : ∃ data, parse (writtenRows s) = .ok data := by
    refine ⟨_, (parse_eq_ok_iff _ _).mpr ⟨fun row hrow => ?_, rfl⟩⟩
    obtain ⟨-, -, -, found, -, hfound, -⟩ := hplaced row hrow
    exact ⟨found, hfound⟩
  refine ⟨text, data, hfile, hrows ▸ hparse, fun row hrow => ?_, fun i hthrough t ht hkept => ?_⟩
  · obtain ⟨cell, -, -, -, hne, rfl⟩ := PerformanceData.mem_save.mp hrow
    obtain ⟨l, hl, rfl, hbest⟩ := best_observed hparse hpositive hne
    obtain ⟨i, t, ht, hplace⟩ := hobserved l hl
    have hin := (hrange i t ht).1
    refine ⟨i, t, ht, hplace.kept, ?_, hin.parseCompressor, hin.applied_iff⟩
    have hsaved := hplace.saved data
    rwa [← hbest, hplace.compressor] at hsaved
  · obtain ⟨hin, hfits⟩ := hrange i t ht
    obtain ⟨row, hrow⟩ : ∃ row, t.row = some row := by
      obtain ⟨call, hcall⟩ := Option.ne_none_iff_exists'.mp hkept.written
      have heasy : getBytecounting call.inData ≤ 100 := (Trial.call_spec hcall).1 ▸ hkept.easy
      obtain ⟨rate, ratio, hcompress⟩ := compress_of_le heasy
      exact ⟨_, Option.bind_eq_some_iff.mpr ⟨call, hcall, hcompress⟩⟩
    obtain ⟨found, hfound, hall, hsome⟩ := hin.located hfits hrow
    obtain ⟨l, rfl⟩ := Option.ne_none_iff_exists'.mp (hsome hkept)
    have hplace := hall l rfl
    have hl : l ∈ observed (writtenRows s) :=
      mem_observed.mpr ⟨row, row_written hrun hthrough ht hrow, hfound⟩
    exact ⟨_, _, hplace.mem_save (items_ne_nil hparse hl), hplace.saved data⟩

end

def copyTrial (inData : ByteString) : Trial := ⟨inData, .COPY, -1, .finite 0, .finite 1, none⟩

theorem lines_copyTrial {inData : ByteString} (h : getBytecounting inData = 1) :
    lines [copyTrial inData] = [ascii "COPY,-1,0,1,1,1,1"] := by
  simp only [lines, copyTrial, Trial.row, Trial.call, compress, h, List.filterMap_cons,
    Option.bind_some, if_true, List.filterMap_nil]
  decide +kernel

theorem copyTrial_inRange {inData : ByteString} (h : getBytecounting inData = 1)
    (hsize : 0 < inData.length ∧ inData.length < 2 ^ 60) :
    (copyTrial inData).InRange ∧ (copyTrial inData).Fits := by
  refine ⟨⟨⟨-1, rfl⟩, ⟨0, le_refl 0, zero_le_one, rfl⟩, .inr (.inr ⟨1, one_pos, rfl⟩), hsize, ?_⟩, ?_⟩
  · intro size compressionTime hcompressed
    contradiction
  · intro hhundred
    rw [show getBytecounting (copyTrial inData).inData = 1 from h] at hhundred
    contradiction

theorem copyTrial_kept {inData : ByteString} (h : getBytecounting inData = 1) :
    (copyTrial inData).Kept where
  written := Option.some_ne_none _
  easy := by
    rw [show getBytecounting (copyTrial inData).inData = 1 from h]
    decide
  compressor := by simp [copyTrial]
  bandwidth := by simp [copyTrial]

/-- The row is written, the file is closed, and then its thread takes the row from the queue. -/
def copyActions : List (SynchronizedFile.Action Unit) :=
  .lock () :: List.replicate 21 .stream ++ [.unlock, .destroy, .stream, .setDone, .notify] ++
    List.replicate 5 .work ++ [.join]

theorem training_set_copy : ∃ (text : ByteString) (data : PerformanceData),
    parse (Csv.reader text) = .ok data ∧
      ∃ label, ∃ row ∈ data.save, (copyTrial (List.replicate 4096 0)).Saved label row := by
  have hone : getBytecounting (List.replicate 4096 0) = 1 :=
    AutoCompCompressor.getBytecounting_zeros
  have hsize : 0 < (List.replicate 4096 (0 : Byte)).length ∧
      (List.replicate 4096 (0 : Byte)).length < 2 ^ 60 := by
    rw [List.length_replicate]
    decide
  generalize List.replicate 4096 (0 : Byte) = inData at hone hsize ⊢
  have hexec : ((Transition.exec SynchronizedFile.step
      (.init (fun _ : Unit => [ascii "COPY,-1,0,1,1,1,1"]) (fun _ => none) (ascii "log"))
      copyActions).map fun s => (s.use.isDestroyed, s.calls ())) = some (true, []) := by
    decide +kernel
  rw [← lines_copyTrial hone] at hexec
  obtain ⟨s, hs, hleft⟩ := Option.map_eq_some_iff.mp hexec
  obtain ⟨huse, hthrough⟩ := Prod.mk.inj hleft
  have hrange : ∀ i : Unit, ∀ t ∈ [copyTrial inData], t.InRange ∧ t.Fits := by
    intro i t ht
    rw [List.mem_singleton.mp ht]
    exact copyTrial_inRange hone hsize
  obtain ⟨text, data, -, hparse, -, hkept⟩ := training_set hrange (Transition.reachable_exec hs)
    (SynchronizedFile.Use.isDestroyed_iff.mp huse)
  exact ⟨text, data, hparse,
    hkept () hthrough _ (List.mem_singleton_self _) (copyTrial_kept hone)⟩

end TrainingCompressor

end Autocomp

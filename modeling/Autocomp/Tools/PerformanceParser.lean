import Autocomp.Lib.PyDict
import Autocomp.Lib.PyFloat
import Autocomp.Tools.PerformanceData
import Mathlib.Analysis.Convex.Hull

/-!
# The table that the decision tree is trained on

`AutoCompPerformanceDataParser` goes through the rows of a training log and keeps, in a cell for each
combination of levels, a transmission rate for every compressor. Its table is asked for the cell of
each row that it does not skip.
-/

namespace Autocomp

open ByteMemory

/-- What is kept of a compressor: a transmission rate, and the number of rows it is made from. -/
structure CompressorData where
  transmissionRate : PyFloat
  count : Nat
  deriving DecidableEq

abbrev Cell := PyDict ByteString CompressorData

/-- The cells, and the indices that they have been asked for under. -/
structure PerformanceData where
  data : Nat × Nat × Nat → Cell
  requested : List (Int × Int × Int)

namespace PerformanceData

def N_CPU_LOAD_LEVELS : Nat := 11

def N_BYTECOUNTING_LEVELS : Nat := 10

def initial : PerformanceData := ⟨fun _ => .empty, []⟩

def cpuLoadLevelOf (cpuLoad : PyFloat) : Except PyError Int :=
  ((cpuLoad.mul (.finite 100)).div 10).toInt

def bandwidthLevelOf (bandwidth : PyFloat) : Except PyError Int :=
  if bandwidth.lt (.finite 100) then (bandwidth.div 5).toInt
  else if bandwidth.lt (.finite 1000) then ((bandwidth.div 100).add (.finite 19)).toInt
  else .ok (N_BANDWDITH_LEVELS - 1)

def indicesOf (cpuLoad bandwidth : PyFloat) (bytecounting : Int) :
    Except PyError (Int × Int × Int) := do
  let cpuLoadLevel ← cpuLoadLevelOf cpuLoad
  let bandwidthLevel ← bandwidthLevelOf bandwidth
  return (cpuLoadLevel, bandwidthLevel, bytecountingLevel bytecounting)

/-- The place in a list of `n` that an index stands for. A negative one counts from the end. -/
def position (n : Nat) (index : Int) : Except PyError Nat :=
  if 0 ≤ index ∧ index < n then .ok index.toNat
  else if -n ≤ index ∧ index < 0 then .ok (n + index).toNat
  else .error .indexError

/-- The cell that `__getitem__` and `__setitem__` access. -/
def cellOf (indices : Int × Int × Int) : Except PyError (Nat × Nat × Nat) := do
  let cpuLoad ← position N_CPU_LOAD_LEVELS indices.1
  let bandwidth ← position N_BANDWDITH_LEVELS.toNat indices.2.1
  let bytecounting ← position N_BYTECOUNTING_LEVELS indices.2.2
  return (cpuLoad, bandwidth, bytecounting)

/-- The indices of a cell, with none that counts from the end. -/
def Existing (indices : Int × Int × Int) : Prop :=
  (0 ≤ indices.1 ∧ indices.1 < N_CPU_LOAD_LEVELS) ∧
    (0 ≤ indices.2.1 ∧ indices.2.1 < N_BANDWDITH_LEVELS) ∧
    (0 ≤ indices.2.2 ∧ indices.2.2 < N_BYTECOUNTING_LEVELS)

/-- One round of the loop of `get_best_compressor`. -/
def better (best : ByteString × PyFloat) (item : ByteString × CompressorData) :
    ByteString × PyFloat :=
  if best.2.lt item.2.transmissionRate then (item.1, item.2.transmissionRate) else best

def getBestCompressor (data : Cell) : ByteString := (data.items.foldl better ([], .negInf)).1

end PerformanceData

namespace AutoCompPerformanceDataParser

open PerformanceData

def field (row : List ByteString) (index : Nat) : Except PyError ByteString :=
  match row[index]? with
  | some text => .ok text
  | none => .error .indexError

def keeps (row : List ByteString) : Except PyError Bool := do
  let compressor ← field row 0
  let bytecounting ← PyFloat.float (← field row 4)
  let bandwidth ← PyFloat.float (← field row 3)
  return !(decide (compressor = ascii "LZO") || (PyFloat.finite 100).lt bytecounting ||
    decide (bandwidth = .finite 0))

def getCompressor (compressorData : List ByteString) : Except PyError ByteString := do
  let name ← field compressorData 0
  let level ← field compressorData 1
  return (if level = ascii "-1" then name else name ++ ascii "_" ++ level).map PyFloat.toLower

/-- What `parse` takes from a row. -/
structure Reading where
  compressor : ByteString
  cpuLoad : PyFloat
  bandwidth : PyFloat
  bytecounting : Int
  transmissionRate : PyFloat

def read (line : List ByteString) : Except PyError Reading := do
  let compressor ← getCompressor (line.take 2)
  let cpuLoad ← PyFloat.float (← field line 2)
  let bandwidth ← PyFloat.float (← field line 3)
  let bytecounting ← PyFloat.int (← field line 4)
  let compressionRate ← PyFloat.float (← field line 5)
  let compressionRatio ← PyFloat.float (← field line 6)
  return ⟨compressor, cpuLoad, bandwidth, bytecounting,
    (bandwidth.min compressionRate).mul compressionRatio⟩

/-- The data of a compressor after one more row. -/
def update (transmissionRate : PyFloat) : Option CompressorData → CompressorData
  | none => ⟨transmissionRate, 1⟩
  | some ⟨last, count⟩ =>
    ⟨if count % 20 = 0 then ((last.mul (.finite (count - 1))).add transmissionRate).div (count + 1)
      else ((last.mul (.finite count)).add transmissionRate).div (count + 1), count + 1⟩

def store (data : PerformanceData) (r : Reading) : Except PyError PerformanceData := do
  let indices ← indicesOf r.cpuLoad r.bandwidth r.bytecounting
  let cell ← cellOf indices
  let entry := data.data cell
  let compressorData := update r.transmissionRate (entry.get r.compressor)
  return ⟨Function.update data.data cell (entry.set r.compressor compressorData),
    data.requested ++ [indices]⟩

def step (data : PerformanceData) (row : List ByteString) : Except PyError PerformanceData := do
  if ← keeps row then store data (← read row) else return data

/-- `parse`, on the rows that `csv.reader` makes of the file. -/
def parse (rows : List (List ByteString)) : Except PyError PerformanceData :=
  rows.foldlM step initial

/-- The indices and the cell of a row, and what it adds to the cell. -/
structure Located where
  indices : Int × Int × Int
  cell : Nat × Nat × Nat
  compressor : ByteString
  transmissionRate : PyFloat
  deriving DecidableEq

/-- The place of a row that is not skipped. -/
def locate (row : List ByteString) : Except PyError (Option Located) := do
  if ← keeps row then
    let r ← read row
    let indices ← indicesOf r.cpuLoad r.bandwidth r.bytecounting
    let cell ← cellOf indices
    return some ⟨indices, cell, r.compressor, r.transmissionRate⟩
  else return none

def record (data : PerformanceData) (l : Located) : PerformanceData :=
  ⟨Function.update data.data l.cell
      ((data.data l.cell).set l.compressor
        (update l.transmissionRate ((data.data l.cell).get l.compressor))),
    data.requested ++ [l.indices]⟩

def observed (rows : List (List ByteString)) : List Located :=
  rows.filterMap fun row =>
    match locate row with
    | .ok found => found
    | .error _ => none

theorem step_eq (data : PerformanceData) (row : List ByteString) :
    step data row = (locate row).map fun found => (found.map (record data)).getD data := by
  unfold step locate
  cases keeps row with
  | error e => rfl
  | ok kept =>
    cases kept with
    | false => rfl
    | true =>
      cases read row with
      | error e => simp [bind, Except.bind, Except.map]
      | ok r =>
        simp only [bind, Except.bind, if_true, store]
        cases indicesOf r.cpuLoad r.bandwidth r.bytecounting with
        | error e => simp [Except.map]
        | ok indices =>
          cases hcell : cellOf indices with
          | error e => simp [hcell, Except.map]
          | ok cell => simp [hcell, Except.map, pure, Except.pure, record]

theorem foldlM_step_iff (rows : List (List ByteString)) (data data' : PerformanceData) :
    rows.foldlM step data = .ok data' ↔
      (∀ row ∈ rows, ∃ found, locate row = .ok found) ∧
        (observed rows).foldl record data = data' := by
  induction rows generalizing data with
  | nil => simp [observed, pure, Except.pure]
  | cons row rows ih =>
    rw [List.foldlM_cons, step_eq]
    cases hlocate : locate row with
    | error e => simp [hlocate, bind, Except.bind, Except.map]
    | ok found =>
      have hobserved : (observed (row :: rows)).foldl record data =
          (observed rows).foldl record ((found.map (record data)).getD data) := by
        cases found <;> simp [observed, hlocate]
      rw [hobserved, List.forall_mem_cons]
      simp only [Except.map, bind, Except.bind, ih, hlocate]
      simp

theorem parse_eq_ok_iff (rows : List (List ByteString)) (data : PerformanceData) :
    parse rows = .ok data ↔ (∀ row ∈ rows, ∃ found, locate row = .ok found) ∧
      (observed rows).foldl record initial = data :=
  foldlM_step_iff rows initial data

theorem mem_observed {rows : List (List ByteString)} {l : Located} :
    l ∈ observed rows ↔ ∃ row ∈ rows, locate row = .ok (some l) := by
  rw [observed, List.mem_filterMap]
  constructor
  · rintro ⟨row, hrow, hfound⟩
    refine ⟨row, hrow, ?_⟩
    cases hlocate : locate row with
    | error e => simp [hlocate] at hfound
    | ok found =>
      rw [hlocate] at hfound
      exact congrArg Except.ok hfound
  · rintro ⟨row, hrow, hlocate⟩
    exact ⟨row, hrow, by rw [hlocate]⟩

theorem foldl_record_requested (observed : List Located) (data : PerformanceData) :
    (observed.foldl record data).requested = data.requested ++ observed.map Located.indices := by
  induction observed generalizing data with
  | nil => simp
  | cons l observed ih => simp [ih, record]

def ratesOf (observed : List Located) (cell : Nat × Nat × Nat) (compressor : ByteString) :
    List PyFloat :=
  (observed.filter fun l => l.cell = cell ∧ l.compressor = compressor).map Located.transmissionRate

/-- The transmission rates of the rows of a compressor in a cell. -/
def rates (rows : List (List ByteString)) (cell : Nat × Nat × Nat) (compressor : ByteString) :
    List PyFloat :=
  ratesOf (observed rows) cell compressor

def updateAll (transmissionRates : List PyFloat) (compressorData : Option CompressorData) :
    Option CompressorData :=
  transmissionRates.foldl (fun old rate => some (update rate old)) compressorData

theorem record_get (data : PerformanceData) (l : Located) (cell : Nat × Nat × Nat)
    (compressor : ByteString) : ((record data l).data cell).get compressor =
      updateAll (ratesOf [l] cell compressor) ((data.data cell).get compressor) := by
  by_cases hcell : cell = l.cell
  · subst hcell
    by_cases hcompressor : compressor = l.compressor
    · subst hcompressor
      simp [record, ratesOf, updateAll]
    · simp [record, ratesOf, updateAll, hcompressor, Ne.symm hcompressor]
  · simp [record, ratesOf, updateAll, hcell, Ne.symm hcell]

theorem foldl_record_get (observed : List Located) (data : PerformanceData)
    (cell : Nat × Nat × Nat) (compressor : ByteString) :
    ((observed.foldl record data).data cell).get compressor =
      updateAll (ratesOf observed cell compressor) ((data.data cell).get compressor) := by
  induction observed generalizing data with
  | nil => rfl
  | cons l observed ih =>
    have hsplit : ratesOf (l :: observed) cell compressor =
        ratesOf [l] cell compressor ++ ratesOf observed cell compressor := by
      rw [ratesOf, ratesOf, ratesOf, ← List.map_append, ← List.filter_append, List.singleton_append]
    rw [List.foldl_cons, ih, record_get, hsplit, updateAll, updateAll, updateAll, List.foldl_append]

theorem parse_get {rows : List (List ByteString)} {data : PerformanceData}
    (h : parse rows = .ok data) (cell : Nat × Nat × Nat) (compressor : ByteString) :
    (data.data cell).get compressor = updateAll (rates rows cell compressor) none := by
  obtain ⟨-, rfl⟩ := (parse_eq_ok_iff rows data).mp h
  exact foldl_record_get (observed rows) initial cell compressor

/-- The rate after one more row, of exact numbers. -/
def average (count : Nat) (last rate : ℚ) : ℚ :=
  if count % 20 = 0 then (last * (count - 1) + rate) / (count + 1)
  else (last * count + rate) / (count + 1)

theorem update_finite (count : Nat) (last rate : ℚ) :
    update (.finite rate) (some ⟨.finite last, count⟩) =
      ⟨.finite (average count last rate), count + 1⟩ := by
  simp only [update, average, PyFloat.mul_finite, PyFloat.add_finite, PyFloat.div_finite,
    Nat.cast_add, Nat.cast_one]
  split <;> rfl

theorem updateAll_concat (transmissionRates : List PyFloat) (rate : PyFloat)
    (compressorData : Option CompressorData) :
    updateAll (transmissionRates ++ [rate]) compressorData =
      some (update rate (updateAll transmissionRates compressorData)) := by
  rw [updateAll, List.foldl_append]
  rfl

theorem mean_mem_convexHull {s : Set ℚ} {x y : ℚ} (hx : x ∈ convexHull ℚ s) (hy : y ∈ s) (n : Nat) :
    (x * n + y) / (n + 1) ∈ convexHull ℚ s := by
  have hpos : (0 : ℚ) < n + 1 := by positivity
  have hmem := convex_convexHull ℚ s hx (subset_convexHull ℚ s hy)
    (show 0 ≤ (n : ℚ) / (n + 1) by positivity) (show 0 ≤ 1 / ((n : ℚ) + 1) by positivity)
    (by rw [← add_div, div_self hpos.ne'])
  have hsum : ((n : ℚ) / (n + 1)) • x + (1 / ((n : ℚ) + 1)) • y = (x * n + y) / (n + 1) := by
    simp only [smul_eq_mul]
    ring
  rwa [hsum] at hmem

/-- Up to the twentieth row, the rate is a convex combination of those of the rows. -/
theorem updateAll_convex {qs : List ℚ} (hne : qs ≠ []) (hlength : qs.length ≤ 20) :
    ∃ rate, updateAll (qs.map .finite) none = some ⟨.finite rate, qs.length⟩ ∧
      rate ∈ convexHull ℚ {q | q ∈ qs} := by
  induction qs using List.reverseRecOn with
  | nil => contradiction
  | append_singleton qs q ih =>
    rw [List.length_append, List.length_singleton] at hlength
    by_cases hfirst : qs = []
    · subst hfirst
      exact ⟨q, rfl, subset_convexHull ℚ _ (List.mem_singleton_self q)⟩
    · obtain ⟨last, hlast, hmem⟩ := ih hfirst (by omega)
      have hpos := List.length_pos_iff.mpr hfirst
      have hbranch : average qs.length last q = (last * qs.length + q) / (qs.length + 1) := by
        rw [average, if_neg (by omega)]
      have hgrow : last ∈ convexHull ℚ {r | r ∈ qs ++ [q]} :=
        convexHull_mono (fun r hr => List.mem_append_left _ hr) hmem
      refine ⟨average qs.length last q, ?_, ?_⟩
      · rw [List.map_append, List.map_singleton, updateAll_concat, hlast, update_finite,
          List.length_append, List.length_singleton]
      · rw [hbranch]
        exact mean_mem_convexHull hgrow (List.mem_append_right _ (List.mem_singleton_self q)) _

theorem between_of_convex {qs : List ℚ} {rate : ℚ} (h : rate ∈ convexHull ℚ {q | q ∈ qs}) :
    (∃ low ∈ qs, low ≤ rate) ∧ ∃ high ∈ qs, rate ≤ high := by
  constructor
  · by_contra hnone
    have habove : {q | q ∈ qs} ⊆ Set.Ioi rate := by
      intro q hq
      exact not_le.mp fun hle => hnone ⟨q, hq, hle⟩
    exact lt_irrefl rate (convexHull_min habove (convex_Ioi rate) h)
  · by_contra hnone
    have hbelow : {q | q ∈ qs} ⊆ Set.Iio rate := by
      intro q hq
      exact not_le.mp fun hle => hnone ⟨q, hq, hle⟩
    exact lt_irrefl rate (convexHull_min hbelow (convex_Iio rate) h)

/-- What the loop has found is the rate of an item, and no item has a better one. -/
theorem foldl_better (items : List (ByteString × CompressorData)) (best : ByteString × PyFloat) :
    (items.foldl better best = best ∨
      ∃ item ∈ items, items.foldl better best = (item.1, item.2.transmissionRate)) ∧
    (∀ x, (items.foldl better best).2.lt x = true → best.2.lt x = true) ∧
    ∀ item ∈ items, (items.foldl better best).2.lt item.2.transmissionRate = false := by
  induction items generalizing best with
  | nil => exact ⟨.inl rfl, fun _ h => h, fun _ h => absurd h List.not_mem_nil⟩
  | cons item items ih =>
    obtain ⟨hfound, hgrows, hbest⟩ := ih (better best item)
    rw [List.foldl_cons]
    by_cases hbetter : best.2.lt item.2.transmissionRate = true
    · have hstep : better best item = (item.1, item.2.transmissionRate) := if_pos hbetter
      rw [hstep] at hfound hgrows hbest ⊢
      refine ⟨.inr ?_, fun x hx => PyFloat.lt_trans hbetter (hgrows x hx), ?_⟩
      · rcases hfound with hfound | ⟨other, hother, hfound⟩
        · exact ⟨item, List.mem_cons_self .., hfound⟩
        · exact ⟨other, List.mem_cons_of_mem _ hother, hfound⟩
      · intro other hother
        rcases List.mem_cons.mp hother with rfl | hother
        · by_contra hlt
          have hself := hgrows _ (Bool.not_eq_false _ ▸ hlt)
          exact absurd hself (by simp [PyFloat.lt_irrefl])
        · exact hbest other hother
    · have hstep : better best item = best := if_neg hbetter
      rw [hstep] at hfound hgrows hbest ⊢
      refine ⟨?_, hgrows, ?_⟩
      · rcases hfound with hfound | ⟨other, hother, hfound⟩
        · exact .inl hfound
        · exact .inr ⟨other, List.mem_cons_of_mem _ hother, hfound⟩
      · intro other hother
        rcases List.mem_cons.mp hother with rfl | hother
        · exact Bool.not_eq_true _ ▸ fun hlt => hbetter (hgrows _ hlt)
        · exact hbest other hother

theorem getBestCompressor_ne {data : Cell} {compressor other : ByteString}
    {worse better : CompressorData} {low high : ℚ} (hworse : data.get compressor = some worse)
    (hbetter : data.get other = some better) (hlow : worse.transmissionRate = .finite low)
    (hhigh : better.transmissionRate = .finite high) (hlt : low < high) :
    getBestCompressor data ≠ compressor := by
  intro hbest
  obtain ⟨hfound, -, hall⟩ := foldl_better data.items ([], .negInf)
  have hother := hall (other, better) ((data.mem_items_iff other better).mpr hbetter)
  simp only [hhigh] at hother
  rcases hfound with hfound | ⟨item, hitem, hfound⟩
  · rw [hfound] at hother
    simp [PyFloat.lt] at hother
  · have hitem' : item = (compressor, worse) := by
      have hname : item.1 = compressor := by
        rw [← hbest, getBestCompressor, hfound]
      have hget := (data.mem_items_iff item.1 item.2).mp hitem
      rw [hname, hworse] at hget
      exact Prod.ext hname (Option.some.inj hget).symm
    rw [hfound, hitem'] at hother
    simp only [hlow, PyFloat.lt_finite, decide_eq_false_iff_not] at hother
    exact hother hlt

/-- What the table says of a compressor with `n` rows in a cell is faithful to them, and so is the
choice between two compressors of which the more frequent one has `n`. -/
structure Faithful (n : Nat) : Prop where
  convex : ∀ rows data, parse rows = .ok data → ∀ cell compressor (qs : List ℚ), qs ≠ [] →
    qs.length = n → rates rows cell compressor = qs.map .finite →
    ∃ compressorData rate, (data.data cell).get compressor = some compressorData ∧
      compressorData.transmissionRate = .finite rate ∧ rate ∈ convexHull ℚ {q | q ∈ qs} ∧
      (∃ low ∈ qs, low ≤ rate) ∧ ∃ high ∈ qs, rate ≤ high
  best : ∀ rows data, parse rows = .ok data → ∀ cell compressor other (qs qs' : List ℚ), qs ≠ [] →
    qs' ≠ [] → max qs.length qs'.length = n → rates rows cell compressor = qs.map .finite →
    rates rows cell other = qs'.map .finite → (∀ q ∈ qs, ∀ q' ∈ qs', q < q') →
    getBestCompressor (data.data cell) ≠ compressor

theorem faithful_of_le {n : Nat} (h : n ≤ 20) : Faithful n where
  convex rows data hparse cell compressor qs hne hlength hrates := by
    obtain ⟨rate, hget, hmem⟩ := updateAll_convex hne (hlength.le.trans h)
    rw [← hrates, ← parse_get hparse] at hget
    exact ⟨_, rate, hget, rfl, hmem, between_of_convex hmem⟩
  best rows data hparse cell compressor other qs qs' hne hne' hlength hrates hrates' hless := by
    obtain ⟨rate, hget, hmem⟩ := updateAll_convex hne ((le_max_left _ _).trans (hlength.le.trans h))
    obtain ⟨rate', hget', hmem'⟩ :=
      updateAll_convex hne' ((le_max_right _ _).trans (hlength.le.trans h))
    rw [← hrates, ← parse_get hparse] at hget
    rw [← hrates', ← parse_get hparse] at hget'
    obtain ⟨-, high, hhigh, hle⟩ := between_of_convex hmem
    obtain ⟨⟨low, hlow, hge⟩, -⟩ := between_of_convex hmem'
    exact getBestCompressor_ne hget hget' rfl rfl
      (hle.trans_lt ((hless high hhigh low hlow).trans_le hge))

def unitRow : List ByteString := ["ZLIB", "6", "0", "1", "0", "1", "1"].map ascii

theorem locate_unitRow :
    locate unitRow = .ok (some ⟨(0, 0, 0), (0, 0, 0), ascii "zlib_6", .finite 1⟩) := by
  decide +kernel

theorem updateAll_ones (n : Nat) : ∃ rate, updateAll (List.replicate (n + 1) (.finite 1)) none =
    some ⟨.finite rate, n + 1⟩ ∧ rate ≤ 1 ∧ (20 ≤ n → rate < 1) := by
  induction n with
  | zero => exact ⟨1, rfl, le_refl 1, fun h => by omega⟩
  | succ n ih =>
    obtain ⟨last, hlast, hle, hlt⟩ := ih
    have hpos : (0 : ℚ) < n + 1 + 1 := by positivity
    have hn : (0 : ℚ) ≤ n := Nat.cast_nonneg n
    refine ⟨average (n + 1) last 1, ?_, ?_, ?_⟩
    · rw [List.replicate_succ', updateAll_concat, hlast, update_finite]
    · unfold average
      push_cast
      split <;> rw [div_le_one hpos] <;> nlinarith
    · intro hmany
      unfold average
      push_cast
      split
      · rw [div_lt_one hpos]
        nlinarith
      · have hbefore := hlt (by omega)
        rw [div_lt_one hpos]
        nlinarith

theorem rates_replicate (n : Nat) :
    rates (List.replicate n unitRow) (0, 0, 0) (ascii "zlib_6") = List.replicate n (.finite 1) := by
  simp [rates, ratesOf, observed, locate_unitRow]

theorem parse_replicate (n : Nat) : ∃ data, parse (List.replicate n unitRow) = .ok data := by
  refine ⟨_, (parse_eq_ok_iff _ _).mpr ⟨?_, rfl⟩⟩
  intro row hrow
  rw [List.eq_of_mem_replicate hrow]
  exact ⟨_, locate_unitRow⟩

theorem not_faithful_of_lt {n : Nat} (h : 20 < n) : ¬ Faithful n := by
  intro hfaithful
  obtain ⟨m, rfl⟩ : ∃ m, n = m + 1 := ⟨n - 1, by omega⟩
  obtain ⟨data, hparse⟩ := parse_replicate (m + 1)
  obtain ⟨rate, hget, -, hlost⟩ := updateAll_ones m
  rw [← rates_replicate, ← parse_get hparse] at hget
  obtain ⟨compressorData, stored, hstored, hrate, -, ⟨low, hlow, hle⟩, -⟩ :=
    hfaithful.convex _ data hparse (0, 0, 0) (ascii "zlib_6") (List.replicate (m + 1) 1)
      (by simp) (List.length_replicate ..) (by rw [rates_replicate, List.map_replicate])
  rw [hget, Option.some.injEq] at hstored
  rw [← hstored, PyFloat.finite.injEq] at hrate
  rw [List.eq_of_mem_replicate hlow, ← hrate] at hle
  exact absurd hle (not_le.mpr (hlost (by omega)))

/-- The table is faithful to the rows exactly as long as there are no more than twenty. -/
theorem faithful_iff (n : Nat) : Faithful n ↔ n ≤ 20 := by
  constructor
  · intro h
    by_contra hmany
    exact not_faithful_of_lt (not_le.mp hmany) h
  · exact faithful_of_le

/-- Of twenty-one rows with a rate of one, the table makes less than one. -/
theorem not_faithful_equal_rows : ¬ ∀ n, Faithful n := by
  intro h
  exact not_faithful_of_lt (by decide : 20 < 21) (h 21)

end AutoCompPerformanceDataParser

end Autocomp

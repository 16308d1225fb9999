import Autocomp.Compression.LeveledCompressor
import Autocomp.Lib.Rotation
import Mathlib.Data.List.Sort

/-!
# The round-robin compressor

`RoundRobinCompressor` goes through the levels of its compressors, one for each call. Its iterator is
advanced at the end of `compress`, which a call that throws does not reach.
-/

namespace Autocomp

open LeveledCompressor Rotation

structure CompressionPerformanceData where
  compressor : ByteString
  compressionLevel : BitVec 16
  elapsedTime : Int
  originalSize : Nat
  finalSize : Nat

def formatData (data : CompressionPerformanceData) : ByteString :=
  data.compressor ++ ascii "," ++ ascii (toString data.compressionLevel.toInt) ++ ascii "," ++
    ascii (toString data.elapsedTime) ++ ascii "," ++ ascii (toString data.originalSize) ++
    ascii "," ++ ascii (toString data.finalSize)

namespace RoundRobinCompressor

/-- `multimap::insert`: behind the entries with the same key. -/
def insert (compressors : List (Compressor × Int)) (entry : Compressor × Int) :
    List (Compressor × Int) :=
  compressors.orderedInsert (fun a b => a.1.value < b.1.value) entry

/-- The entries in the order in which the constructor inserts them. -/
def inserted : List (Compressor × Int) :=
  [(.ZLIB, 0), (.SNAPPY, -1)] ++
    [1, 2, 3, 4, 5, 6, 7, 8, 9].flatMap (fun compressionLevel =>
      [(.ZLIB, compressionLevel), (.LZO, compressionLevel), (.BZIP2, compressionLevel),
        (.LZMA, compressionLevel)]) ++
    [(.COPY, -1)]

def compressors : List (Compressor × Int) := inserted.foldl insert []

def start : Fin compressors.length := ⟨0, by decide⟩

/-- The iterator after `++`, or the first one where that is `compressors.end()`. -/
def next (currentCompressor : Fin compressors.length) : Fin compressors.length :=
  if h : currentCompressor.val + 1 < compressors.length then ⟨currentCompressor.val + 1, h⟩
  else start

end RoundRobinCompressor

open RoundRobinCompressor in
/-- The levels of the objects, the iterator, and what was handed to the writer. -/
structure RoundRobinCompressor where
  compressionLevel : Compressor → Int
  currentCompressor : Fin compressors.length
  performanceData : List ByteString

namespace RoundRobinCompressor

def new : RoundRobinCompressor := ⟨constructed, start, []⟩

def selected (r : RoundRobinCompressor) : Compressor × Int := compressors.get r.currentCompressor

def prepare (inData outData : Buffer) (compressorType : Compressor) (compressionLevel : Int)
    (r : RoundRobinCompressor) : Except Exn RoundRobinCompressor :=
  if 0 ≤ compressionLevel then
    match compressorType.levels with
    | some l =>
      match setCompressionLevel compressorType l compressionLevel with
      | .ok level =>
        .ok { r with compressionLevel := Function.update r.compressionLevel compressorType level }
      | .error x =>
        .error (.compressionError (ascii "RoundRobin") inData.actualSize outData.capacity x.what)
    | none =>
      .error (.compressionError (ascii "RoundRobin") inData.actualSize outData.capacity
        (ascii "Invalid pointer to leveled compressor (compressor " ++ compressorType.name ++
          ascii ", level " ++ ascii (toString compressionLevel) ++ ascii ")"))
  else .ok r

def object (codecs : Codecs) (compressorType : Compressor) (r : RoundRobinCompressor) :
    CompressionStrategy :=
  codecs.strategy compressorType
    (if compressorType.levels.isSome then r.compressionLevel compressorType else -1)

/-- `compress`, which has measured an elapsed time: its outcome and the output buffer. -/
def compress (codecs : Codecs) (elapsedTime : Int) (inData outData : Buffer)
    (r : RoundRobinCompressor) : Except Exn Compressor × Buffer × RoundRobinCompressor :=
  let (compressorType, compressionLevel) := r.selected
  if compressorType = .COPY then
    (.ok compressorType, outData, { r with currentCompressor := next r.currentCompressor })
  else
    match r.prepare inData outData compressorType compressionLevel with
    | .error x => (.error x, outData, r)
    | .ok r =>
      match (r.object codecs compressorType).compress inData outData with
      | (.error x, outData) => (.error x, outData, r)
      | (.ok (), outData) =>
        let performanceData : CompressionPerformanceData :=
          ⟨compressorType.name, BitVec.ofInt 16 compressionLevel, elapsedTime, inData.actualSize,
            outData.actualSize⟩
        (.ok compressorType, outData,
          { r with
            currentCompressor := next r.currentCompressor
            performanceData := r.performanceData ++ [formatData performanceData] })

def tried (codecs : Codecs) (entry : Compressor × Int) (inData outData : Buffer) :
    Except Exn Compressor × Buffer :=
  if entry.1 = .COPY then (.ok entry.1, outData)
  else
    match (codecs.strategy entry.1 entry.2).compress inData outData with
    | (.ok (), outData) => (.ok entry.1, outData)
    | (.error x, outData) => (.error x, outData)

/-- An entry does not throw. -/
def Succeeds (codecs : Codecs) (entry : Compressor × Int) (inData outData : Buffer) : Prop :=
  entry.1 = .COPY ∨ ((codecs.strategy entry.1 entry.2).compress inData outData).1 = .ok ()

theorem leveled : ∀ entry ∈ compressors, entry.1 ≠ .COPY →
    (entry.1.levels = none ∧ entry.2 = -1) ∨
      ∃ l ∈ entry.1.levels, 0 ≤ entry.2 ∧ l.Contains entry.2 := by
  decide +kernel

theorem compressors_nodup : compressors.Nodup := by
  decide

theorem selected_mem (r : RoundRobinCompressor) : r.selected ∈ compressors :=
  List.get_mem compressors r.currentCompressor

theorem prepare_ok {r : RoundRobinCompressor} (inData outData : Buffer)
    (hcopy : r.selected.1 ≠ .COPY) : ∃ s : RoundRobinCompressor,
    r.prepare inData outData r.selected.1 r.selected.2 = .ok s ∧
      s.currentCompressor = r.currentCompressor ∧
      ∀ codecs, s.object codecs r.selected.1 = codecs.strategy r.selected.1 r.selected.2 := by
  rcases leveled r.selected r.selected_mem hcopy with ⟨hlevels, hlevel⟩ | ⟨l, hlevels, hlevel, hl⟩
  · refine ⟨r, if_neg (by omega), rfl, fun codecs => ?_⟩
    simp [object, hlevels, hlevel]
  · rw [Option.mem_def] at hlevels
    refine ⟨{ r with
      compressionLevel := Function.update r.compressionLevel r.selected.1 r.selected.2 },
      ?_, rfl, fun codecs => ?_⟩
    · simp only [prepare, if_pos hlevel, hlevels, setCompressionLevel_ok _ hl]
    · simp [object, hlevels]

/-- A call comes to what its entry comes to, and the iterator is advanced only if that is not an
exception. -/
theorem compress_spec (codecs : Codecs) (elapsedTime : Int) (inData outData : Buffer)
    (r : RoundRobinCompressor) :
    ((r.compress codecs elapsedTime inData outData).1,
      (r.compress codecs elapsedTime inData outData).2.1) =
        tried codecs r.selected inData outData ∧
    (Succeeds codecs r.selected inData outData →
      (r.compress codecs elapsedTime inData outData).2.2.currentCompressor =
        next r.currentCompressor) ∧
    (¬ Succeeds codecs r.selected inData outData →
      (r.compress codecs elapsedTime inData outData).2.2.currentCompressor =
        r.currentCompressor) := by
  unfold compress tried Succeeds
  by_cases hcopy : r.selected.1 = .COPY
  · simp [hcopy]
  · obtain ⟨s, hprepare, hcurrent, hobject⟩ := prepare_ok inData outData hcopy
    simp only [if_neg hcopy, hprepare, hobject codecs]
    rcases hcompress : (codecs.strategy r.selected.1 r.selected.2).compress inData outData with
      ⟨result, b⟩
    cases result with
    | error x => simp [hcopy, hcurrent]
    | ok => simp [hcurrent]

structure Call where
  elapsedTime : Int
  inData : Buffer
  outData : Buffer

variable (codecs : Codecs)

/-- The entries that a sequence of calls selects. An exception ends its call only. -/
def selections (r : RoundRobinCompressor) : List Call → List (Compressor × Int)
  | [] => []
  | call :: calls =>
    r.selected ::
      selections (r.compress codecs call.elapsedTime call.inData call.outData).2.2 calls

/-- The entry that is due in call `k`. -/
def due (k : Nat) : Compressor × Int :=
  compressors.get ⟨k % compressors.length, Nat.mod_lt k start.pos⟩

/-- Every call selects the entry that is due, and so any `m` calls in a row select each of the `m`
entries once. -/
structure InTurn (entries : List (Compressor × Int)) : Prop where
  due : ∀ k entry, entries[k]? = some entry → entry = due k
  window : ∀ n, n + compressors.length ≤ entries.length →
    ((entries.drop n).take compressors.length).Perm compressors

variable {codecs}

theorem getElem?_due (k : Nat) : compressors[k % compressors.length]? = some (due k) := by
  rw [due, List.get_eq_getElem, List.getElem?_eq_getElem (Nat.mod_lt k start.pos)]

theorem inTurn_iff_goesRound {entries : List (Compressor × Int)} :
    InTurn entries ↔ GoesRound compressors 0 entries := by
  constructor
  · intro h k hk
    rw [Nat.zero_add, getElem?_due, List.getElem?_eq_getElem hk, Option.some.injEq]
    exact h.due k _ (List.getElem?_eq_getElem hk)
  · intro h
    constructor
    · intro k entry hentry
      have hk := (List.getElem?_eq_some_iff.mp hentry).1
      have hround := h k hk
      rw [Nat.zero_add, getElem?_due, hentry, Option.some.injEq] at hround
      exact hround
    · intro n hn
      exact h.window_perm hn

theorem next_val (i : Fin compressors.length) : (next i).val = (i.val + 1) % compressors.length := by
  unfold next
  split
  · rename_i h
    exact (Nat.mod_eq_of_lt h).symm
  · rename_i h
    have heq : i.val + 1 = compressors.length := by omega
    rw [heq, Nat.mod_self]
    rfl

theorem selected_due {r : RoundRobinCompressor} {c : Nat}
    (h : r.currentCompressor.val = c % compressors.length) : r.selected = due c := by
  rw [selected, due]
  congr 1
  exact Fin.ext h

theorem goesRound_selections {calls : List Call} {r : RoundRobinCompressor} {c : Nat}
    (hcurrent : r.currentCompressor.val = c % compressors.length) :
    GoesRound compressors c (selections codecs r calls) ↔
      ∀ i call, i + 1 < calls.length → calls[i]? = some call →
        Succeeds codecs (due (c + i)) call.inData call.outData := by
  induction calls generalizing r c with
  | nil =>
    apply iff_of_true goesRound_nil
    intro i call hi
    simp at hi
  | cons call calls ih =>
    have hselected := selected_due hcurrent
    obtain ⟨-, hadvance, hstay⟩ :=
      compress_spec codecs call.elapsedTime call.inData call.outData r
    rw [hselected] at hadvance hstay
    by_cases hsucceeds : Succeeds codecs (due c) call.inData call.outData
    · have hnext : (r.compress codecs call.elapsedTime call.inData
          call.outData).2.2.currentCompressor.val = (c + 1) % compressors.length := by
        rw [hadvance hsucceeds, next_val, hcurrent, Nat.mod_add_mod]
      rw [selections, goesRound_cons, ih hnext, hselected]
      constructor
      · rintro ⟨-, hrest⟩ i call' hi hcall'
        cases i with
        | zero =>
          rw [List.getElem?_cons_zero, Option.some.injEq] at hcall'
          rw [← hcall']
          exact hsucceeds
        | succ i =>
          rw [List.getElem?_cons_succ] at hcall'
          have hlater := hrest i call' (by simpa using hi) hcall'
          rwa [Nat.add_right_comm, Nat.add_assoc] at hlater
      · intro hall
        refine ⟨getElem?_due c, fun i call' hi hcall' => ?_⟩
        rw [Nat.add_right_comm, Nat.add_assoc]
        apply hall (i + 1) call' (by simpa using hi)
        rw [List.getElem?_cons_succ]
        exact hcall'
    · cases calls with
      | nil =>
        apply iff_of_true
        · rw [selections, goesRound_cons, hselected]
          exact ⟨getElem?_due c, goesRound_nil⟩
        · intro i call' hi
          simp at hi
      | cons call' calls =>
        apply iff_of_false
        · intro hround
          have hsame : (r.compress codecs call.elapsedTime call.inData
              call.outData).2.2.selected = r.selected := by
            rw [selected, hstay hsucceeds, selected]
          apply hround.ne compressors_nodup (by decide)
          exact hsame
        · intro hall
          exact hsucceeds (hall 0 call (by simp) rfl)

/-- The entries are selected in turn exactly if no call throws, unless it is the last one. -/
theorem selections_inTurn_iff (codecs : Codecs) (calls : List Call) :
    InTurn (selections codecs .new calls) ↔
      ∀ i call, i + 1 < calls.length → calls[i]? = some call →
        Succeeds codecs (due i) call.inData call.outData := by
  have hcurrent : new.currentCompressor.val = 0 % compressors.length := rfl
  rw [inTurn_iff_goesRound, goesRound_selections hcurrent]
  simp only [Nat.zero_add]

/-- A library that stores a chunk as it is, if there is room for it. -/
def storing : CompressionStrategy where
  compress inData outData :=
    match outData.setData inData.contents with
    | .ok outData => (.ok (), outData)
    | .error x => (.error (.compressionError [] inData.actualSize outData.capacity x.what), outData)
  decompress inData outData :=
    match outData.setData inData.contents with
    | .ok outData => (.ok (), outData)
    | .error x => (.error (.decompressionError [] inData.actualSize outData.capacity x.what), outData)

def storingCodecs : Codecs where
  library _ _ := storing
  inWords := ⟨fun _ => 0⟩
  outBytes := ⟨fun _ => 0⟩
  inBytes := ⟨fun _ => 0⟩
  outWords := ⟨fun _ => 0⟩

def byteCall (capacity : Nat) : Call := ⟨0, ⟨[0], 1, 1⟩, .withCapacity capacity⟩

/-- Where the first call throws, the second one selects ZLIB at level 0 again. -/
theorem selected_twice :
    selections storingCodecs .new [byteCall 0, byteCall 1] = [(.ZLIB, 0), (.ZLIB, 0)] ∧
      ¬ InTurn (selections storingCodecs .new [byteCall 0, byteCall 1]) := by
  have hselections : selections storingCodecs .new [byteCall 0, byteCall 1] =
      [(.ZLIB, 0), (.ZLIB, 0)] := by decide +kernel
  refine ⟨hselections, fun hturn => ?_⟩
  rw [hselections] at hturn
  have hdue := hturn.due 1 (.ZLIB, 0) rfl
  contradiction

end RoundRobinCompressor

end Autocomp

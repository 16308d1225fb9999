import Autocomp.Compression.Strategies
import Autocomp.Lib.SinglePrecision

/-!
# The adaptive compressor

`AutoCompCompressor::compress` keeps three numbers in static locals, which belong to the process and
not to the object: every object of the class takes its budgets from the same three.
-/

namespace Autocomp

open ByteMemory

/-- `bytecounting`: how many of the 256 values occur at least as often as they would on average. -/
def bytecounting (data : List Byte) : Nat :=
  (List.range 256).countP fun value => data.length / 256 ≤ data.count (BitVec.ofNat 8 value)

namespace AutoCompCompressor

/-- `0.1f`. -/
def subChunkProportion : SinglePrecision.Constant := ⟨13421773, 27⟩

/-- `0.10f`, `0.45f` and `0.80f`. -/
def relativeSubChunkPositions : List SinglePrecision.Constant :=
  [⟨13421773, 27⟩, ⟨15099494, 25⟩, ⟨13421773, 24⟩]

/-- `getBytecounting`: the average over three parts of the data, rounded. -/
def getBytecounting (inData : ByteString) : Nat :=
  let subChunkSize := subChunkProportion.scaled inData.length
  let counts := relativeSubChunkPositions.map fun relativePosition =>
    bytecounting ((inData.drop (relativePosition.scaled inData.length)).take subChunkSize)
  (counts.sum + 1) / 3

def bytesToSendUncompressed : BitVec 32 := 512 * 1024

def bytesToSendBeforeCalculatingAgain : BitVec 32 := 512 * 1024

/-- The static locals. The fourth one is written before it is read. -/
structure Statics where
  currentBytecounting : Nat
  remainingBytesToCalculateAgain : BitVec 32
  remainingBytesToSendUncompressed : BitVec 32
  deriving DecidableEq

def Statics.init : Statics := ⟨0, 0, 0⟩

/-- A call of `compress`: the chunk, whether the send buffer is found to be filled by less than a
twentieth, and the levels of the resource state. -/
structure Call where
  inData : ByteString
  sendBufferIdle : Bool
  cpuLoadLevel : Int
  bandwidthLevel : Int

abbrev Classifier := List Int → Except Exn (Compressor × Int)

/-- The part of `compress` that comes after the budgets. -/
def choose (classify : Classifier) (currentBytecounting : Nat) (call : Call) :
    Except Exn Decision :=
  if call.sendBufferIdle then .ok (.lookup .ZLIB 3)
  else
    (classify [call.cpuLoadLevel, call.bandwidthLevel, (currentBytecounting / 10 : Nat)]).map
      fun (compressor, compressionLevel) =>
        if compressor = .COPY then .sendUncompressed else .lookup compressor compressionLevel

/-- `compress`, up to the decision, and the static locals it leaves. -/
def compress (classify : Classifier) (s : Statics) (call : Call) :
    Except Exn Decision × Statics :=
  let size := BitVec.ofNat 32 call.inData.length
  if 0 < s.remainingBytesToSendUncompressed.toInt then
    (.ok .sendUncompressed, { s with
      remainingBytesToSendUncompressed := s.remainingBytesToSendUncompressed - size })
  else if s.remainingBytesToCalculateAgain.toInt ≤ 0 then
    let s := { s with currentBytecounting := getBytecounting call.inData }
    if 100 < s.currentBytecounting then
      (.ok .sendUncompressed, { s with
        remainingBytesToSendUncompressed := bytesToSendUncompressed })
    else (choose classify s.currentBytecounting call, { s with
      remainingBytesToCalculateAgain := bytesToSendBeforeCalculatingAgain })
  else (choose classify s.currentBytecounting call, { s with
    remainingBytesToCalculateAgain := s.remainingBytesToCalculateAgain - size })

inductive Object where
  | A
  | B
  deriving DecidableEq

/-- Calls on the two objects, in the order in which they are made. -/
abbrev Schedule := List (Object × Call)

variable (classify : Classifier)

def choices (s : Statics) : Schedule → List (Except Exn Decision)
  | [] => []
  | (.A, call) :: calls => choices (compress classify s call).2 calls
  | (.B, call) :: calls =>
    (compress classify s call).1 :: choices (compress classify s call).2 calls

def alone (calls : Schedule) : Schedule := calls.filter fun call => call.1 = .B

/-- At every point of the schedule, `B` has decided and will decide on whatever it is given next as it
would without the calls on `A`. -/
def Undisturbed (s : Statics) (schedule : Schedule) : Prop :=
  ∀ before, before <+: schedule → ∀ calls : List Call,
    choices classify s (before ++ calls.map (Object.B, ·)) =
      choices classify s (alone before ++ calls.map (Object.B, ·))

/-- The call finds a budget running and takes nothing from it. -/
def Idle (s : Statics) (call : Call) : Prop :=
  (0 < s.remainingBytesToSendUncompressed.toInt ∨ 0 < s.remainingBytesToCalculateAgain.toInt) ∧
    call.inData.length % 2 ^ 32 = 0

def IdleSchedule (s : Statics) : Schedule → Prop
  | [] => True
  | (.A, call) :: calls => Idle s call ∧ IdleSchedule (compress classify s call).2 calls
  | (.B, call) :: calls => IdleSchedule (compress classify s call).2 calls

variable {classify}

theorem compress_sending {s : Statics} (call : Call)
    (h : 0 < s.remainingBytesToSendUncompressed.toInt) :
    compress classify s call = (.ok .sendUncompressed, { s with
      remainingBytesToSendUncompressed :=
        s.remainingBytesToSendUncompressed - BitVec.ofNat 32 call.inData.length }) := by
  rw [compress, if_pos h]

theorem compress_waiting {s : Statics} (call : Call)
    (hsend : ¬ 0 < s.remainingBytesToSendUncompressed.toInt)
    (hwait : 0 < s.remainingBytesToCalculateAgain.toInt) :
    compress classify s call = (choose classify s.currentBytecounting call, { s with
      remainingBytesToCalculateAgain :=
        s.remainingBytesToCalculateAgain - BitVec.ofNat 32 call.inData.length }) := by
  rw [compress, if_neg hsend, if_neg (Int.not_le.mpr hwait)]

theorem compress_high {s : Statics} {call : Call}
    (hsend : ¬ 0 < s.remainingBytesToSendUncompressed.toInt)
    (hwait : ¬ 0 < s.remainingBytesToCalculateAgain.toInt)
    (hhigh : 100 < getBytecounting call.inData) :
    compress classify s call = (.ok .sendUncompressed, { s with
      currentBytecounting := getBytecounting call.inData
      remainingBytesToSendUncompressed := bytesToSendUncompressed }) := by
  rw [compress, if_neg hsend, if_pos (Int.not_lt.mp hwait)]
  simp only
  rw [if_pos hhigh]

theorem compress_low {s : Statics} {call : Call}
    (hsend : ¬ 0 < s.remainingBytesToSendUncompressed.toInt)
    (hwait : ¬ 0 < s.remainingBytesToCalculateAgain.toInt)
    (hlow : ¬ 100 < getBytecounting call.inData) :
    compress classify s call = (choose classify (getBytecounting call.inData) call, { s with
      currentBytecounting := getBytecounting call.inData
      remainingBytesToCalculateAgain := bytesToSendBeforeCalculatingAgain }) := by
  rw [compress, if_neg hsend, if_pos (Int.not_lt.mp hwait)]
  simp only
  rw [if_neg hlow]

/-- The bytecounting with which `compress` gets as far as `choose`, if it does. -/
def counted (s : Statics) (inData : ByteString) : Option Nat :=
  if 0 < s.remainingBytesToSendUncompressed.toInt then none
  else if 0 < s.remainingBytesToCalculateAgain.toInt then some s.currentBytecounting
  else if 100 < getBytecounting inData then none
  else some (getBytecounting inData)

theorem compress_counted (s : Statics) (call : Call) :
    (compress classify s call).1 =
      match counted s call.inData with
      | none => .ok .sendUncompressed
      | some currentBytecounting => choose classify currentBytecounting call := by
  unfold counted
  by_cases hsend : 0 < s.remainingBytesToSendUncompressed.toInt
  · rw [compress_sending call hsend, if_pos hsend]
  · rw [if_neg hsend]
    by_cases hwait : 0 < s.remainingBytesToCalculateAgain.toInt
    · rw [compress_waiting call hsend hwait, if_pos hwait]
    · rw [if_neg hwait]
      by_cases hhigh : 100 < getBytecounting call.inData
      · rw [compress_high hsend hwait hhigh, if_pos hhigh]
      · rw [compress_low hsend hwait hhigh, if_neg hhigh]

theorem compress_idle {s : Statics} {call : Call} (h : Idle s call) :
    (compress classify s call).2 = s := by
  have hsize : BitVec.ofNat 32 call.inData.length = 0#32 := by
    apply BitVec.eq_of_toNat_eq
    simpa using h.2
  by_cases hsend : 0 < s.remainingBytesToSendUncompressed.toInt
  · rw [compress_sending call hsend, hsize, BitVec.sub_zero]
  · rcases h.1 with hrun | hwait
    · exact absurd hrun hsend
    · rw [compress_waiting call hsend hwait, hsize, BitVec.sub_zero]

/-- A chunk of `n` zeros, offered while the send buffer is nearly empty. -/
def zeros (n : Nat) : Call := ⟨List.replicate n 0, true, 0, 0⟩

/-- A call that finds the send buffer nearly empty is answered with zlib, unless the budget or the
bytecounting of the chunk says to send it as it is. -/
theorem choose_zeros (currentBytecounting n : Nat) :
    choose classify currentBytecounting (zeros n) = .ok (.lookup .ZLIB 3) := rfl

theorem bytecounting_replicate {n : Nat} (h : 256 ≤ n) :
    bytecounting (List.replicate n 0) = 1 := by
  have hcount : ∀ value ∈ List.range 256,
      (decide ((List.replicate n (0 : Byte)).length / 256 ≤
        (List.replicate n (0 : Byte)).count (BitVec.ofNat 8 value)) = true ↔
          decide (value = 0) = true) := by
    intro value hvalue
    rw [List.mem_range] at hvalue
    rw [List.length_replicate, List.count_replicate, decide_eq_true_iff, decide_eq_true_iff]
    split
    · rename_i hzero
      have hval : 0 = value % 2 ^ 8 := congrArg BitVec.toNat (beq_iff_eq.mp hzero)
      omega
    · rename_i hne
      constructor
      · intro hle
        omega
      · intro hzero
        rw [hzero] at hne
        contradiction
  rw [bytecounting, List.countP_congr hcount]
  decide +kernel

/-- Every value occurs as often as it would on average in less than 256 bytes. -/
theorem bytecounting_short {data : List Byte} (h : data.length < 256) : bytecounting data = 256 := by
  rw [bytecounting, List.countP_eq_length.mpr, List.length_range]
  intro value _
  rw [Nat.div_eq_of_lt h]
  simp

theorem getBytecounting_eq {inData : ByteString} {count : Nat}
    (h : ∀ relativePosition ∈ relativeSubChunkPositions,
      bytecounting ((inData.drop (relativePosition.scaled inData.length)).take
        (subChunkProportion.scaled inData.length)) = count) :
    getBytecounting inData = count := by
  have hcounts : (relativeSubChunkPositions.map fun relativePosition =>
      bytecounting ((inData.drop (relativePosition.scaled inData.length)).take
        (subChunkProportion.scaled inData.length))) = relativeSubChunkPositions.map fun _ => count :=
    List.map_congr_left h
  simp only [getBytecounting]
  rw [hcounts]
  simp only [relativeSubChunkPositions, List.map_cons, List.map_nil, List.sum_cons, List.sum_nil]
  omega

theorem getBytecounting_short {inData : ByteString} (h : inData.length < 256) :
    getBytecounting inData = 256 := by
  apply getBytecounting_eq
  intro relativePosition _
  apply bytecounting_short
  rw [List.length_take, List.length_drop]
  omega

theorem bytecounting_sample {n offset size : Nat} (hsize : 256 ≤ size) (h : offset + size ≤ n) :
    bytecounting (((List.replicate n 0).drop offset).take size) = 1 := by
  rw [List.drop_replicate, List.take_replicate, Nat.min_eq_left (by omega)]
  exact bytecounting_replicate hsize

theorem getBytecounting_replicate {n : Nat} (hsize : 256 ≤ subChunkProportion.scaled n)
    (hinside : ∀ relativePosition ∈ relativeSubChunkPositions,
      relativePosition.scaled n + subChunkProportion.scaled n ≤ n) :
    getBytecounting (List.replicate n 0) = 1 := by
  apply getBytecounting_eq
  intro relativePosition hmem
  rw [List.length_replicate]
  exact bytecounting_sample hsize (hinside relativePosition hmem)

theorem getBytecounting_zeros : getBytecounting (zeros 4096).inData = 1 :=
  getBytecounting_replicate (by decide) (by decide)

variable (classify) in
/-- Some calls on `B` are answered differently from the two states. -/
def Told (s t : Statics) : Prop :=
  ∃ calls : List Call, choices classify s (calls.map (Object.B, ·)) ≠
    choices classify t (calls.map (Object.B, ·))

theorem Told.symm {s t : Statics} (h : Told classify s t) : Told classify t s := by
  obtain ⟨calls, hcalls⟩ := h
  exact ⟨calls, hcalls.symm⟩

theorem Told.of_answer {s t : Statics} (call : Call)
    (h : (compress classify s call).1 ≠ (compress classify t call).1) : Told classify s t := by
  use [call]
  intro heq
  exact h (List.head_eq_of_cons_eq heq)

theorem Told.of_after {s t : Statics} (call : Call)
    (h : Told classify (compress classify s call).2 (compress classify t call).2) :
    Told classify s t := by
  obtain ⟨calls, hcalls⟩ := h
  use call :: calls
  intro heq
  exact hcalls (List.tail_eq_of_cons_eq heq)

theorem told_sending {s t : Statics} (hs : 0 < s.remainingBytesToSendUncompressed.toInt)
    (ht : ¬ 0 < t.remainingBytesToSendUncompressed.toInt) : Told classify s t := by
  apply Told.of_answer (zeros 4096)
  rw [compress_sending _ hs]
  by_cases hwait : 0 < t.remainingBytesToCalculateAgain.toInt
  · rw [compress_waiting _ ht hwait, choose_zeros]
    simp
  · have hlow : ¬ 100 < getBytecounting (zeros 4096).inData := by
      rw [getBytecounting_zeros]
      decide
    rw [compress_low ht hwait hlow, choose_zeros]
    simp

theorem told_waiting {s t : Statics} (hs : ¬ 0 < s.remainingBytesToSendUncompressed.toInt)
    (ht : ¬ 0 < t.remainingBytesToSendUncompressed.toInt)
    (hswait : 0 < s.remainingBytesToCalculateAgain.toInt)
    (htwait : ¬ 0 < t.remainingBytesToCalculateAgain.toInt) : Told classify s t := by
  apply Told.of_answer (zeros 0)
  have hhigh : 100 < getBytecounting (zeros 0).inData := by
    rw [getBytecounting_short (by decide)]
    decide
  rw [compress_waiting _ hs hswait, compress_high ht htwait hhigh, choose_zeros]
  simp

theorem toInt_sub_budget {x y : BitVec 32} (hy : 0 < y.toInt) (hx : y.toInt ≤ x.toInt) :
    (x - BitVec.ofNat 32 y.toInt.toNat).toInt = x.toInt - y.toInt := by
  have hlt := BitVec.toInt_lt (x := x)
  rw [BitVec.toInt_sub, BitVec.toInt_ofNat', Int.bmod_def, Int.bmod_def]
  omega

theorem told_of_ne_sending {s t : Statics} (hs : 0 < s.remainingBytesToSendUncompressed.toInt)
    (ht : 0 < t.remainingBytesToSendUncompressed.toInt)
    (hne : s.remainingBytesToSendUncompressed ≠ t.remainingBytesToSendUncompressed) :
    Told classify s t := by
  have huse : ∀ s t : Statics, 0 < t.remainingBytesToSendUncompressed.toInt →
      t.remainingBytesToSendUncompressed.toInt < s.remainingBytesToSendUncompressed.toInt →
      Told classify s t := by
    intro s t ht hlt
    apply Told.of_after (zeros t.remainingBytesToSendUncompressed.toInt.toNat)
    rw [compress_sending _ (by omega), compress_sending _ ht]
    simp only [zeros, List.length_replicate]
    apply told_sending
    · rw [toInt_sub_budget ht (Int.le_of_lt hlt)]
      omega
    · rw [toInt_sub_budget ht (Int.le_refl _)]
      omega
  rcases Int.lt_trichotomy s.remainingBytesToSendUncompressed.toInt
    t.remainingBytesToSendUncompressed.toInt with hlt | heq | hlt
  · exact (huse t s hs hlt).symm
  · exact absurd (BitVec.eq_of_toInt_eq heq) hne
  · exact huse s t ht hlt

theorem told_of_ne_waiting {s t : Statics} (hs : ¬ 0 < s.remainingBytesToSendUncompressed.toInt)
    (ht : ¬ 0 < t.remainingBytesToSendUncompressed.toInt)
    (hswait : 0 < s.remainingBytesToCalculateAgain.toInt)
    (htwait : 0 < t.remainingBytesToCalculateAgain.toInt)
    (hne : s.remainingBytesToCalculateAgain ≠ t.remainingBytesToCalculateAgain) :
    Told classify s t := by
  have huse : ∀ s t : Statics, ¬ 0 < s.remainingBytesToSendUncompressed.toInt →
      ¬ 0 < t.remainingBytesToSendUncompressed.toInt →
      0 < t.remainingBytesToCalculateAgain.toInt →
      t.remainingBytesToCalculateAgain.toInt < s.remainingBytesToCalculateAgain.toInt →
      Told classify s t := by
    intro s t hs ht hwait hlt
    apply Told.of_after (zeros t.remainingBytesToCalculateAgain.toInt.toNat)
    rw [compress_waiting _ hs (by omega), compress_waiting _ ht hwait]
    simp only [zeros, List.length_replicate]
    apply told_waiting
    · exact hs
    · exact ht
    · rw [toInt_sub_budget hwait (Int.le_of_lt hlt)]
      omega
    · rw [toInt_sub_budget hwait (Int.le_refl _)]
      omega
  rcases Int.lt_trichotomy s.remainingBytesToCalculateAgain.toInt
    t.remainingBytesToCalculateAgain.toInt with hlt | heq | hlt
  · exact (huse t s ht hs hswait hlt).symm
  · exact absurd (BitVec.eq_of_toInt_eq heq) hne
  · exact huse s t hs ht htwait hlt

theorem sub_size_ne {x : BitVec 32} {n : Nat} (h : n % 2 ^ 32 ≠ 0) :
    x - BitVec.ofNat 32 n ≠ x := by
  intro heq
  apply h
  have hzero : BitVec.ofNat 32 n = 0#32 := by
    have hadd := BitVec.sub_add_cancel x (BitVec.ofNat 32 n)
    rw [heq] at hadd
    simpa using hadd
  simpa using congrArg BitVec.toNat hzero

/-- A call that is not idle can be told from no call. -/
theorem told_of_not_idle {s : Statics} {call : Call} (h : ¬ Idle s call) :
    Told classify (compress classify s call).2 s := by
  by_cases hsend : 0 < s.remainingBytesToSendUncompressed.toInt
  · have hsize : call.inData.length % 2 ^ 32 ≠ 0 := fun hsize => h ⟨.inl hsend, hsize⟩
    rw [compress_sending call hsend]
    by_cases hleft : 0 < (s.remainingBytesToSendUncompressed -
        BitVec.ofNat 32 call.inData.length).toInt
    · exact told_of_ne_sending hleft hsend (sub_size_ne hsize)
    · exact (told_sending hsend hleft).symm
  · by_cases hwait : 0 < s.remainingBytesToCalculateAgain.toInt
    · have hsize : call.inData.length % 2 ^ 32 ≠ 0 := fun hsize => h ⟨.inr hwait, hsize⟩
      rw [compress_waiting call hsend hwait]
      by_cases hleft : 0 < (s.remainingBytesToCalculateAgain -
          BitVec.ofNat 32 call.inData.length).toInt
      · exact told_of_ne_waiting hsend hsend hleft hwait (sub_size_ne hsize)
      · apply Told.symm
        apply told_waiting
        · exact hsend
        · exact hsend
        · exact hwait
        · exact hleft
    · have hbudget : 0 < bytesToSendUncompressed.toInt ∧
          0 < bytesToSendBeforeCalculatingAgain.toInt := by
        decide
      by_cases hhigh : 100 < getBytecounting call.inData
      · rw [compress_high hsend hwait hhigh]
        exact told_sending hbudget.1 hsend
      · rw [compress_low hsend hwait hhigh]
        exact told_waiting hsend hsend hbudget.2 hwait

theorem alone_cons_A (call : Call) (calls : Schedule) :
    alone ((.A, call) :: calls) = alone calls := by
  simp [alone]

theorem alone_cons_B (call : Call) (calls : Schedule) :
    alone ((.B, call) :: calls) = (.B, call) :: alone calls := by
  simp [alone]

/-- As long as all calls on `A` are idle, `B` decides as if there were none. -/
theorem choices_idle {s : Statics} {schedule : Schedule} (h : IdleSchedule classify s schedule)
    (calls : List Call) : choices classify s (schedule ++ calls.map (Object.B, ·)) =
      choices classify s (alone schedule ++ calls.map (Object.B, ·)) := by
  induction schedule generalizing s with
  | nil => rfl
  | cons head rest ih =>
    rcases head with ⟨_ | _, call⟩
    · rw [List.cons_append, choices, alone_cons_A, ih h.2, compress_idle h.1]
    · rw [List.cons_append, choices, alone_cons_B, List.cons_append, choices, ih h]

theorem idleSchedule_of_isPrefix {s : Statics} {before schedule : Schedule}
    (h : IdleSchedule classify s schedule) (hbefore : before <+: schedule) :
    IdleSchedule classify s before := by
  induction before generalizing s schedule with
  | nil => trivial
  | cons head rest ih =>
    obtain ⟨after, rfl⟩ := hbefore
    rcases head with ⟨_ | _, call⟩
    · exact ⟨h.1, ih h.2 (List.prefix_append ..)⟩
    · exact ih h (List.prefix_append ..)

/-- From its first call on, the calls on `A` go unnoticed by `B` exactly if they are all idle. -/
theorem undisturbed_iff (classify : Classifier) (schedule : Schedule) :
    Undisturbed classify .init schedule ↔ IdleSchedule classify .init schedule := by
  generalize Statics.init = s
  constructor
  · intro hundisturbed
    induction schedule generalizing s with
    | nil => trivial
    | cons head rest ih =>
      rcases head with ⟨_ | _, call⟩
      · have hidle : Idle s call := by
          by_contra hnot
          have htold : Told classify _ s := told_of_not_idle hnot
          obtain ⟨calls, hne⟩ := htold
          exact hne (hundisturbed [(.A, call)] (by simp) calls)
        use hidle
        apply ih
        intro before hbefore calls
        have hprefix : (Object.A, call) :: before <+: (.A, call) :: rest :=
          List.cons_prefix_cons.mpr ⟨rfl, hbefore⟩
        have heq := hundisturbed _ hprefix calls
        rw [List.cons_append, choices, alone_cons_A] at heq
        rw [heq, compress_idle hidle]
      · apply ih
        intro before hbefore calls
        have hprefix : (Object.B, call) :: before <+: (.B, call) :: rest :=
          List.cons_prefix_cons.mpr ⟨rfl, hbefore⟩
        have heq := hundisturbed _ hprefix calls
        rw [List.cons_append, choices, alone_cons_B, List.cons_append, choices] at heq
        exact List.tail_eq_of_cons_eq heq
  · intro hidle before hbefore calls
    exact choices_idle (idleSchedule_of_isPrefix hidle hbefore) calls

def always (compressor : Compressor) (compressionLevel : Int) : Classifier :=
  fun _ => .ok (compressor, compressionLevel)

/-- A chunk of one byte of `A` counts 256 and makes `B` send a chunk of zeros as it is. -/
theorem budget_disturbs :
    choices (always .LZMA 6) .init [(.A, zeros 1), (.B, zeros 4096)] = [.ok .sendUncompressed] ∧
      choices (always .LZMA 6) .init (alone [(.A, zeros 1), (.B, zeros 4096)]) =
        [.ok (.lookup .ZLIB 3)] ∧
      ¬ Undisturbed (always .LZMA 6) .init [(.A, zeros 1)] := by
  have hstart : ¬ 0 < Statics.init.remainingBytesToSendUncompressed.toInt ∧
      ¬ 0 < Statics.init.remainingBytesToCalculateAgain.toInt := by
    decide
  have hhigh : 100 < getBytecounting (zeros 1).inData := by
    rw [getBytecounting_short (by decide)]
    decide
  have hlow : ¬ 100 < getBytecounting (zeros 4096).inData := by
    rw [getBytecounting_zeros]
    decide
  have hboth : choices (always .LZMA 6) .init [(.A, zeros 1), (.B, zeros 4096)] =
      [.ok .sendUncompressed] := by
    rw [choices, compress_high hstart.1 hstart.2 hhigh, choices, compress_sending]
    · rfl
    · decide
  have halone : choices (always .LZMA 6) .init (alone [(.A, zeros 1), (.B, zeros 4096)]) =
      [.ok (.lookup .ZLIB 3)] := by
    rw [alone_cons_A, alone_cons_B, choices, compress_low hstart.1 hstart.2 hlow, choose_zeros]
    rfl
  refine ⟨hboth, halone, ?_⟩
  intro hundisturbed
  have heq := hundisturbed [(.A, zeros 1)] List.prefix_rfl [zeros 4096]
  change choices (always .LZMA 6) .init [(.A, zeros 1), (.B, zeros 4096)] = _ at heq
  rw [hboth] at heq
  change _ = choices (always .LZMA 6) .init (alone [(.A, zeros 1), (.B, zeros 4096)]) at heq
  rw [halone] at heq
  simp at heq

end AutoCompCompressor

end Autocomp

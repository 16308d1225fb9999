import Autocomp.Compression.FileProcessing
import Autocomp.Compression.Fpc.RoundTrip

namespace Autocomp.FPCCompressor

open ByteMemory MachineInt

/-- The words that are read when the size of `n` words has been converted to an `int`. -/
def wordsRead (n : Nat) : Nat := (toInt32 (8 * n)).toNat / 8

/-- On `n` words every access stays within its array, no more than the bound is written, nor past
the output buffer, and there is no `CompressionError` if the buffer has the bound. -/
structure Within (n : Nat) (outData : Buffer) (r : Except Exn Unit × Buffer) : Prop where
  defined : r.1 ≠ .error .undefinedBehaviour
  written : ∃ written : List Byte, r.2.data = (outData.overwrite written).data ∧
    written.length ≤ bound n ∧ written.length ≤ outData.capacity
  size : r.1 = .ok () → r.2.actualSize ≤ bound n
  roomy : bound n ≤ outData.capacity → ∀ inSize outCapacity message,
    r.1 ≠ .error (compressionError inSize outCapacity message)

/-- At every level, on all `n` words, whatever the buffers and the scratch arrays hold. -/
def AllWithin (n capacity : Nat) : Prop :=
  ∀ compressionLevel, 1 ≤ compressionLevel ∧ compressionLevel ≤ 28 →
    ∀ (ws : List (BitVec 64)) (inbuf : InWords) (outbuf : OutBytes) (inData outData : Buffer),
      ws.length = n → inData.WellFormed → inData.contents = listBytes ws → outData.WellFormed →
      outData.capacity = capacity →
        Within n outData (compress compressionLevel inbuf outbuf inData outData)

theorem toInt32_words (n : Nat) (h : 0 ≤ toInt32 (8 * n)) :
    toInt32 (8 * n) = 8 * wordsRead n ∧ wordsRead n ≤ n := by
  unfold wordsRead
  rw [toInt32_eq, Int.bmod_def] at h ⊢
  omega

theorem wordsRead_le (n : Nat) : wordsRead n ≤ n := by
  have hle := toInt32_le (8 * n)
  unfold wordsRead
  omega

theorem wordsRead_of_lt {n : Nat} (h : 8 * n < 2 ^ 31) : wordsRead n = n := by
  rw [wordsRead, toInt32_of_lt h]
  omega

theorem feeds_wordsRead {inData : Buffer} {ws : List (BitVec 64)} (hwf : inData.WellFormed)
    (hin : inData.contents = listBytes ws) (h : 0 ≤ toInt32 (8 * ws.length)) :
    inData.actualSize = 8 * ws.length ∧
      Feeds (ws.take (wordsRead ws.length)) inData.data (toInt32 inData.actualSize) := by
  have hsize : inData.actualSize = 8 * ws.length := by
    rw [← contents_length hwf, hin, listBytes_length]
  obtain ⟨hread, hle⟩ := toInt32_words ws.length h
  refine ⟨hsize, listBytes (ws.drop (wordsRead ws.length)) ++ inData.data.drop inData.actualSize,
    0, ?_, ?_, by omega, Nat.zero_le _⟩
  · rw [← List.append_assoc, ← listBytes_append, List.take_append_drop, ← hin, Buffer.contents,
      List.take_append_drop]
  · rw [hsize, hread, List.length_take, Nat.min_eq_left hle]
    omega

section

variable (compressionLevel : Nat) (inbuf : InWords) (outbuf : OutBytes) {inData outData : Buffer}

theorem compress_no_capacity (h : toInt32 outData.capacity = 0) :
    compress compressionLevel inbuf outbuf inData outData =
      (.error (compressionError inData.actualSize outData.capacity
        (ascii "Out buffer ran out of space")), outData) := by
  simp only [compress, h, if_true]

theorem compress_undefined (hzero : toInt32 outData.capacity ≠ 0)
    (h : toInt32 outData.capacity = intMin ∨ toInt32 inData.actualSize < 0) :
    compress compressionLevel inbuf outbuf inData outData =
      (.error .undefinedBehaviour, outData) := by
  by_cases hmin : toInt32 outData.capacity = intMin
  · simp only [compress, if_neg hzero, if_pos hmin]
  · have hneg : toInt32 inData.actualSize < 0 := h.resolve_left hmin
    have hrefill : refill inbuf inData.data (toInt32 inData.actualSize) = none := by
      have hbytes : refillBytes (toInt32 inData.actualSize) < 0 := by
        unfold refillBytes
        split <;> omega
      simp only [refill, hbytes, true_or, if_true]
    simp only [compress, if_neg hzero, if_neg hmin, hrefill,
      outbuf.store8_of_lt _ (show 0 < _ by omega)]

theorem compress_no_room {ws : List (BitVec 64)}
    (hfeed : Feeds ws inData.data (toInt32 inData.actualSize)) (hcap : outData.capacity < 2 ^ 63)
    (hzero : toInt32 outData.capacity ≠ 0) (hmin : toInt32 outData.capacity ≠ intMin)
    (hroom : toInt32 outData.capacity < compressedSize compressionLevel ws) :
    ∃ written message, compress compressionLevel inbuf outbuf inData outData =
        (.error (compressionError inData.actualSize outData.capacity message),
          outData.overwrite written) ∧
      written.length ≤ compressedSize compressionLevel ws ∧
      written.length ≤ outData.capacity := by
  have hle := toInt32_le outData.capacity
  obtain ⟨s, hp, havail, hw, hfeed', hgo⟩ :=
    compress_feeds compressionLevel inbuf outbuf outData hfeed hzero hmin
  unfold compressedSize at hroom ⊢
  by_cases hstuck : ws = [] ∧ toInt32 outData.capacity < 0
  · -- there is nothing to write, and the size that is left is more than the capacity
    obtain ⟨rfl, hneg⟩ := hstuck
    have hloop : compressBlocks (tableMask compressionLevel) inData.actualSize outData.capacity s
        (blockLength []) = ([], .ok (toInt32 outData.capacity - 1)) := by
      rw [compressBlocks, if_neg (by decide), havail]
    have hlarge : 2 ^ 31 ≤ outData.capacity := by
      by_contra hlt
      rw [toInt32_of_lt (by omega)] at hneg
      omega
    have hlost := toInt32_add_le hlarge
    have hge := intMin_le_toInt32 outData.capacity
    rw [intMin] at hge
    refine ⟨[BitVec.ofNat 8 compressionLevel],
      ascii "Size can not be greater than buffer's capacity", ?_, Nat.le_add_right 1 _, ?_⟩
    · rw [hgo _ _ hloop, deliver]
      have hsize : (outData.overwrite [BitVec.ofNat 8 compressionLevel]).capacity <
          toSize ((outData.overwrite [BitVec.ofNat 8 compressionLevel]).capacity -
            (toInt32 outData.capacity - 1)) := by
        change outData.capacity < toSize (outData.capacity - (toInt32 outData.capacity - 1))
        rw [toSize_of_nonneg (by omega) (by omega)]
        omega
      simp only [Buffer.setSize]
      rw [if_pos hsize]
      rfl
    · rw [List.length_singleton]
      omega
  · obtain ⟨bs, hthrown, hwithin, hlength⟩ := (compressBlocks_stream
      (m := tableMask compressionLevel) inData.actualSize outData.capacity ws s hw hfeed'
      (fun hnil => by
        have hnonneg : ¬ toInt32 outData.capacity < 0 := fun hneg => hstuck ⟨hnil, hneg⟩
        omega)).2 (by rw [hp]; omega)
    rw [hp] at hlength
    have hpos : 0 < outData.capacity := by
      by_contra hnone
      rw [show outData.capacity = 0 by omega] at hzero
      exact hzero rfl
    refine ⟨BitVec.ofNat 8 compressionLevel :: bs, _, hgo _ _ hthrown, ?_, ?_⟩
    · rw [List.length_cons]
      omega
    · rw [List.length_cons]
      rcases hwithin with rfl | hwithin
      · exact hpos
      · omega

end

/-- The sizes that the converted numbers still bear out: nothing undefined is done with them, and
if there is the bound then what is taken for the capacity has room for what is read, and what is
taken for the size is within the bound. -/
def Borne (n capacity : Nat) : Prop :=
  (toInt32 capacity = 0 ∨ toInt32 capacity ≠ intMin ∧ 0 ≤ toInt32 (8 * n)) ∧
    (bound n ≤ capacity → bound (wordsRead n) ≤ toInt32 capacity ∧
      bound (wordsRead n) + (capacity - toInt32 capacity) ≤ bound n)

theorem borne_of_lt {n capacity : Nat} (hn : 8 * n < 2 ^ 31) (hcapacity : capacity < 2 ^ 31) :
    Borne n capacity := by
  rw [Borne, wordsRead_of_lt hn, toInt32_of_lt hn, toInt32_of_lt hcapacity, intMin]
  omega

theorem Borne.within {n capacity : Nat} (h : Borne n capacity) (hcap : capacity < 2 ^ 63) :
    AllWithin n capacity := by
  rintro compressionLevel - ws inbuf outbuf inData outData rfl hwf hin hout rfl
  by_cases hzero : toInt32 outData.capacity = 0
  · rw [compress_no_capacity compressionLevel inbuf outbuf hzero]
    refine ⟨by simp [compressionError], ⟨[], ?_, Nat.zero_le _, Nat.zero_le _⟩,
      fun hok => by contradiction, fun hroomy => ?_⟩
    · simp [Buffer.overwrite]
    · have hpos := bound_pos (wordsRead ws.length)
      have hle := (h.2 hroomy).1
      omega
  · obtain ⟨hmin, hnonneg⟩ := h.1.resolve_left hzero
    obtain ⟨hsize, hfeed⟩ := feeds_wordsRead hwf hin hnonneg
    have hread := (toInt32_words ws.length hnonneg).2
    have hlength : (ws.take (wordsRead ws.length)).length = wordsRead ws.length := by
      rw [List.length_take, Nat.min_eq_left hread]
    have hbound := compressedSize_le_bound compressionLevel (ws.take (wordsRead ws.length))
    rw [hlength] at hbound
    have hmono := bound_mono hread
    have hle := toInt32_le outData.capacity
    by_cases hroom : compressedSize compressionLevel (ws.take (wordsRead ws.length)) ≤
        toInt32 outData.capacity
    · obtain ⟨bytes, hbytes, hgo⟩ := compress_room compressionLevel inbuf outbuf outData hfeed
        (by omega) hroom
      have hbytesLength := hbytes.length
      rw [hgo]
      refine ⟨by simp, ⟨bytes, rfl, by omega, by omega⟩, fun _ => ?_, fun _ => by simp⟩
      by_cases hroomy : bound ws.length ≤ outData.capacity
      · have hlost := (h.2 hroomy).2
        simp only
        omega
      · simp only
        omega
    · obtain ⟨written, message, hgo, hwritten, hfits⟩ := compress_no_room compressionLevel inbuf
        outbuf hfeed hcap hzero hmin (by omega)
      rw [hgo]
      refine ⟨by simp [compressionError], ⟨written, rfl, by omega, hfits⟩,
        fun hok => by contradiction, fun hroomy => ?_⟩
      have hle := (h.2 hroomy).1
      omega

theorem AllWithin.borne {n capacity : Nat} (h : AllWithin n capacity) (hcap : capacity < 2 ^ 63) :
    Borne n capacity := by
  -- words that no prediction shortens, followed by any others
  obtain ⟨vs, hvs, hsize⟩ := exists_compressedSize_eq 1 (wordsRead n)
  set ws := vs ++ List.replicate (n - wordsRead n) 0 with hws
  have hle := wordsRead_le n
  have hlength : ws.length = n := by
    rw [hws, List.length_append, List.length_replicate, hvs]
    omega
  set inData : Buffer := ⟨listBytes ws, (listBytes ws).length, (listBytes ws).length⟩ with hinData
  set outData : Buffer := ⟨List.replicate capacity 0, capacity, 0⟩ with houtData
  have hwf : inData.WellFormed := ⟨Nat.le_refl _, Nat.le_refl _⟩
  have hin : inData.contents = listBytes ws := List.take_length
  have hout : outData.WellFormed := ⟨Nat.zero_le _, by simp [houtData]⟩
  have hactual : inData.actualSize = 8 * n := by
    rw [← contents_length hwf, hin, listBytes_length, hlength]
  have hwithin := h 1 ⟨by decide, by decide⟩ ws ⟨fun _ => 0⟩ ⟨fun _ => 0⟩ inData outData hlength hwf
    hin hout rfl
  have hdefined : toInt32 capacity = 0 ∨ toInt32 capacity ≠ intMin ∧ 0 ≤ toInt32 (8 * n) := by
    by_contra hnot
    obtain ⟨hzero, hbad⟩ := not_or.mp hnot
    apply hwithin.defined
    have hconversion : toInt32 capacity = intMin ∨ toInt32 inData.actualSize < 0 := by
      rw [hactual]
      by_cases hmin : toInt32 capacity = intMin
      · exact .inl hmin
      · exact .inr (Int.not_le.mp fun hnonneg => hbad ⟨hmin, hnonneg⟩)
    have hundefined : compress 1 ⟨fun _ => 0⟩ ⟨fun _ => 0⟩ inData outData =
        (.error .undefinedBehaviour, outData) := compress_undefined _ _ _ hzero hconversion
    rw [hundefined]
  refine ⟨hdefined, fun hroomy => ?_⟩
  have hzero : toInt32 outData.capacity ≠ 0 := by
    intro hzero
    apply hwithin.roomy hroomy
    rw [compress_no_capacity 1 ⟨fun _ => 0⟩ ⟨fun _ => 0⟩ hzero]
  obtain ⟨hmin, hnonneg⟩ := hdefined.resolve_left hzero
  obtain ⟨-, hfeed⟩ := feeds_wordsRead hwf hin (by rw [hlength]; exact hnonneg)
  rw [hlength, show ws.take (wordsRead n) = vs by rw [hws, ← hvs, List.take_left]] at hfeed
  have hroom : bound (wordsRead n) ≤ toInt32 outData.capacity := by
    by_contra hnone
    obtain ⟨written, message, hgo, -⟩ := compress_no_room 1 ⟨fun _ => 0⟩ ⟨fun _ => 0⟩ hfeed hcap
      hzero hmin (by rw [hsize]; omega)
    apply hwithin.roomy hroomy
    rw [hgo]
  obtain ⟨bytes, hbytes, hgo⟩ := compress_room 1 ⟨fun _ => 0⟩ ⟨fun _ => 0⟩ outData hfeed
    (show capacity < 2 ^ 64 by omega) (by rw [hsize]; exact hroom)
  have hlost := hwithin.size (by rw [hgo])
  have hbytesLength := hbytes.length
  rw [hgo] at hlost
  change bytes.length + (capacity - (toInt32 capacity).toNat) ≤ bound n at hlost
  change (bound (wordsRead n) : Int) ≤ toInt32 capacity at hroom
  have hfits := toInt32_le capacity
  refine ⟨hroom, ?_⟩
  omega

/-- On `n` words and with a capacity, `_compress` keeps to its arrays, to the bound and to the
capacity exactly if the two numbers bear their conversion to `int`; and the capacity that a chunk is
given is never less than the bound. -/
theorem allWithin_iff (n capacity : Nat) (hcap : capacity < 2 ^ 63) :
    (AllWithin n capacity ↔ Borne n capacity) ∧
    ∀ chunkSize, 1 ≤ chunkSize → 8 * n ≤ 1024 * chunkSize →
      bound n ≤ 11 * (1024 * chunkSize) / 10 := by
  constructor
  · constructor
    · intro h
      exact h.borne hcap
    · intro h
      exact h.within hcap
  · intro chunkSize
    exact bound_le_capacity

/-- The words of a chunk of 512 kilobytes. -/
theorem allWithin_chunk : AllWithin 65536 576716 ∧ bound 65536 ≤ 576716 :=
  have hchunk := allWithin_iff 65536 576716 (by norm_num)
  ⟨hchunk.1.mpr (borne_of_lt (by norm_num) (by norm_num)),
    hchunk.2 512 (by norm_num) (by norm_num)⟩

/-- One word and four gibibytes of room, which are taken for none. -/
theorem no_room_in_four_gibibytes :
    bound 1 ≤ 2 ^ 32 ∧
      compress 20 ⟨fun _ => 0⟩ ⟨fun _ => 0⟩ ⟨listBytes [0x3ff0000000000000#64], 8, 8⟩
          (.withCapacity (2 ^ 32)) =
        (.error (compressionError 8 (2 ^ 32) (ascii "Out buffer ran out of space")),
          .withCapacity (2 ^ 32)) ∧
      ¬ AllWithin 1 (2 ^ 32) := by
  have hbound := bound_le 1
  rw [show BLOCK_SIZE = 32768 from rfl] at hbound
  have hzero : toInt32 (2 ^ 32) = 0 := by decide
  refine ⟨by omega, compress_no_capacity 20 _ _ hzero, fun h => ?_⟩
  have hroom := ((h.borne (by norm_num)).2 (by omega)).1
  have hpos := bound_pos (wordsRead 1)
  omega

end Autocomp.FPCCompressor

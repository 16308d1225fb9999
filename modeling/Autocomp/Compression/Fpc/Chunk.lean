import Autocomp.Compression.Fpc.RoundTrip

namespace Autocomp.FPCCompressor

open ByteMemory MachineInt

theorem wordBytes_ofBytes (f : Nat → Byte) : wordBytes (ofBytes f) = (List.range 8).map f := by
  rw [wordBytes]
  refine List.map_congr_left fun i hi => ?_
  exact byteAt_ofBytes f (List.mem_range.mp hi)

theorem exists_word (bs : List Byte) (h : bs.length = 8) : ∃ x, wordBytes x = bs := by
  refine ⟨ofBytes fun i => bs.getD i 0, ?_⟩
  rw [wordBytes_ofBytes]
  apply List.ext_getElem
  · simp [h]
  · intro i hi hi'
    simp [hi']

theorem exists_words (bs : List Byte) :
    ∃ ws junk, bs = listBytes ws ++ junk ∧ junk.length = bs.length % 8 := by
  induction hn : bs.length using Nat.strongRecOn generalizing bs with
  | ind n ih =>
    by_cases hlt : bs.length < 8
    · exact ⟨[], bs, rfl, by omega⟩
    · obtain ⟨x, hx⟩ := exists_word (bs.take 8) (by rw [List.length_take]; omega)
      obtain ⟨ws, junk, hrest, hjunk⟩ := ih (n - 8) (by omega) (bs.drop 8)
        (by rw [List.length_drop]; omega)
      refine ⟨x :: ws, junk, ?_, by omega⟩
      rw [listBytes, List.flatMap_cons, hx, List.append_assoc, ← listBytes, ← hrest,
        List.take_append_drop]

theorem compressedSize_le (compressionLevel : Nat) {ws : List (BitVec 64)} {n : Nat}
    (hlow : 400 ≤ n) (hhigh : n ≤ 524288) (h : 8 * ws.length ≤ n) :
    compressedSize compressionLevel ws ≤ 11 * n / 10 := by
  have hsize := two_mul_compressedSize_le compressionLevel ws
  rw [show BLOCK_SIZE = 32768 from rfl] at hsize
  omega

/-- Compressing a chunk gives the compressed form of its whole words. -/
theorem compress_chunk (compressionLevel : Nat) (inbuf : InWords) (outbuf : OutBytes)
    {inData : Buffer} (outData : Buffer) {ws : List (BitVec 64)} {junk : List Byte} {n : Nat}
    (hin : inData.contents = listBytes ws ++ junk) (hjunk : junk.length < 8)
    (hlow : 400 ≤ n) (hhigh : n ≤ 524288) (hsize : inData.contents.length ≤ n)
    (hwf : inData.WellFormed) (hcap : outData.capacity = 11 * n / 10) :
    ∃ compressed, compress compressionLevel inbuf outbuf inData outData = (.ok (), compressed) ∧
      Compressed compressionLevel ws compressed.contents := by
  have hlen : 8 * ws.length ≤ n := by
    rw [hin, List.length_append, listBytes_length] at hsize
    omega
  have hint : toInt32 outData.capacity = outData.capacity := toInt32_of_lt (by omega)
  obtain ⟨bytes, hc, hgo⟩ := compress_ok compressionLevel inbuf outbuf outData hin hjunk
    (by rw [← contents_length hwf]; omega) hwf (by omega)
    (by rw [hint, hcap]; exact Int.ofNat_le.mpr (compressedSize_le compressionLevel hlow hhigh hlen))
  refine ⟨_, hgo, ?_⟩
  have hgap : outData.capacity - (toInt32 outData.capacity).toNat = 0 := by omega
  simp only [Buffer.contents, Buffer.overwrite, hgap, Nat.add_zero]
  rwa [List.take_left]

theorem Compressed.ne_nil {compressionLevel : Nat} {ws : List (BitVec 64)} {bytes : List Byte}
    (h : Compressed compressionLevel ws bytes) : bytes ≠ [] := by
  obtain ⟨bs, rfl, -⟩ := h
  simp

theorem decompress_chunk {compressionLevel : Nat} {ws : List (BitVec 64)} {bytes : List Byte}
    (inbuf : InBytes) (outbuf : OutWords) (restored : Buffer)
    (hc : Compressed compressionLevel ws bytes) (hlevel : compressionLevel ≤ 28) (hne : ws ≠ [])
    (hlen : 8 * ws.length ≤ 524288) (hroom : 8 * ws.length ≤ restored.capacity)
    (hcap : restored.capacity < 2 ^ 31) :
    ∃ result, decompress inbuf outbuf ⟨bytes, bytes.length, bytes.length⟩ restored =
        (.ok (), result) ∧
      result.contents = listBytes ws ∧ result.capacity = restored.capacity := by
  have hint := toInt32_of_lt hcap
  have hsize := hc.length
  have hmax := compressedSize_le compressionLevel (by decide) (Nat.le_refl 524288) hlen
  rw [decompress_ok [] inbuf outbuf hc hlevel hne (by simp)
    (toInt32_of_lt (by simp only; omega)) (by omega) (by omega)]
  refine ⟨_, rfl, ?_, rfl⟩
  have hgap : restored.capacity - (toInt32 restored.capacity).toNat = 0 := by omega
  simp only [Buffer.contents, Buffer.overwrite, hgap, Nat.add_zero]
  exact List.take_left' (listBytes_length ws)

/-- The compressed form of no words is the level byte, which `decompress` rejects. -/
theorem decompress_short {compressionLevel : Nat} {bytes : List Byte} (inbuf : InBytes)
    (outbuf : OutWords) (restored : Buffer) (hc : Compressed compressionLevel [] bytes) :
    decompress inbuf outbuf ⟨bytes, bytes.length, bytes.length⟩ restored =
      (.error (decompressionError bytes.length restored.capacity
        (ascii "In boffer is not in FPC format")), restored) := by
  have hlen := hc.length
  rw [compressedSize, streamLength_nil] at hlen
  have hint : toInt32 bytes.length < 7 := by
    rw [toInt32_of_lt (by omega)]
    omega
  simp only [decompress, hint, if_true]

/-- `decompress` does not depend on what the output buffer held. -/
theorem decompress_afresh (inbuf : InBytes) (outbuf : OutWords) (inData : Buffer) {a b : Buffer}
    (hcapacity : a.capacity = b.capacity) (hsmall : a.capacity < 2 ^ 32) :
    (decompress inbuf outbuf inData a).1 = (decompress inbuf outbuf inData b).1 ∧
      ((decompress inbuf outbuf inData a).1 = .ok () →
        (decompress inbuf outbuf inData a).2.contents =
          (decompress inbuf outbuf inData b).2.contents ∧
        (decompress inbuf outbuf inData a).2.capacity = a.capacity) := by
  obtain ⟨written, result, hres, hgo⟩ := decompress_written inbuf outbuf inData a.capacity
  rw [hgo a rfl, hgo b hcapacity.symm]
  cases result with
  | error e =>
    refine ⟨rfl, fun h => ?_⟩
    simp [deliver] at h
  | ok left =>
    obtain ⟨hnonneg, hleft⟩ := hres left rfl
    have hlt := lt_of_toInt32_nonneg hsmall (by omega)
    have hint := toInt32_of_lt hlt
    rw [deliver_ok _ _ (by omega) hnonneg hleft,
      deliver_ok _ _ (by omega) hnonneg (by rw [← hcapacity]; exact hleft)]
    refine ⟨rfl, fun _ => ⟨?_, rfl⟩⟩
    have hzero : a.capacity - (toInt32 a.capacity).toNat = 0 := by omega
    rw [← hcapacity]
    simp only [Buffer.contents, Buffer.overwrite, hzero, Nat.add_zero, List.take_left]

end Autocomp.FPCCompressor

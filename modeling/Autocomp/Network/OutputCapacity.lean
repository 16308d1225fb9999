import Autocomp.Compression.LibraryContracts
import Autocomp.Network.AnyChunks

/-!
# The output buffer of a chunk

Snappy and LZO write what they compress without looking at the capacity of the output. It is the
buffer that `processRequest` keeps for its chunks: `getNextChunk` makes it a tenth larger than a chunk
before it hands it to the strategy, and the loop moves it away with the chunk in it.
-/

namespace Autocomp.Server

open AnyFileProcessor FileStream FileProcessingStrategy

variable {σ : Type}

/-- A strategy that notes the buffers it is called with. -/
def noting : CompressWith (Option (Buffer × Buffer)) :=
  fun inData outData _ => (.ok .COPY, outData, some (inData, outData))

/-- The input and output buffers with which `getNextChunk` calls its strategy, if it does. -/
def strategyCall (p : FileProcessingStrategy) (chunk : Buffer) : Option (Buffer × Buffer) :=
  ((⟨p, none⟩ : AnyFileProcessor (Option (Buffer × Buffer))).getNextChunk noting chunk).2.2.compressor

/-- The bytes that the library may write for `n` bytes of input without checking for room. The other
compressors are told the capacity. -/
def worstCase : Compressor → Nat → Option Nat
  | .SNAPPY, n => some (32 + n + n / 6)
  | .LZO, n => some (n + n / 16 + 67)
  | .ZLIB, _ | .BZIP2, _ | .LZMA, _ | .FPC, _ | .COPY, _ => none

/-- The states of `processRequest` before it opens a file or gets a chunk. The processor has the chunk
size of the request; the disk and the queue may be changed by others. -/
inductive Serves (protobuf : Protobuf) (compress : CompressWith σ) (chunkSize : Nat) :
    AnyServing σ → Prop
  | start {s : AnyServing σ}
    (hbytes : s.processor.chunkSizeBytes = (FileProcessingStrategy.new chunkSize).chunkSizeBytes)
    (hchunk : s.chunk = .withCapacity (11 * chunkSize * 1024 / 10)) :
    Serves protobuf compress chunkSize s
  | openNextFile {s : AnyServing σ} (hs : Serves protobuf compress chunkSize s) (disk : Disk Path)
    (transmissionQueue : TransmissionQueue) :
    Serves protobuf compress chunkSize { s with
      processor := (s.processor.openNextFile disk).2
      transmissionQueue := transmissionQueue
      nChunks := 0
      broken := false }
  | getNextChunk {s t : AnyServing σ} (hs : Serves protobuf compress chunkSize s)
    (ht : serveAnyChunk protobuf compress s = .ok t) : Serves protobuf compress chunkSize t

theorem openNextFile_chunkSizeBytes (disk : Disk Path) (p : AnyFileProcessor σ) :
    (p.openNextFile disk).2.chunkSizeBytes = p.chunkSizeBytes := by
  obtain ⟨-, -, hbytes⟩ := p.takeNextFile_kept disk
  unfold AnyFileProcessor.openNextFile
  split
  · generalize p.takeNextFile disk = r at hbytes
    obtain ⟨_ | _, s⟩ := r
    · exact hbytes
    · simp only at hbytes ⊢
      split
      · exact hbytes
      · exact hbytes
  · rfl

theorem getNextChunk_chunkSizeBytes (compress : CompressWith σ) (p : AnyFileProcessor σ)
    (chunk : Buffer) : (p.getNextChunk compress chunk).2.2.chunkSizeBytes = p.chunkSizeBytes := by
  unfold AnyFileProcessor.getNextChunk
  split
  · rfl
  · split
    · rfl
    · simp only
      split
      · rfl
      · split <;> rfl

/-- The strategy may throw what it likes but an `IOError`, after which the loop would go on. -/
def ThrowsNoIOErrors (compress : CompressWith σ) : Prop :=
  ∀ inData outData s message, (compress inData outData s).1 ≠ .error (.ioError message)

/-- A call that throws an `IOError` has not come to the strategy, and leaves the chunk alone. -/
theorem getNextChunk_ioError {compress : CompressWith σ} (hthrows : ThrowsNoIOErrors compress)
    {p q : AnyFileProcessor σ} {chunk left : Buffer} {message : ByteString}
    (h : p.getNextChunk compress chunk = (.error (.ioError message), left, q)) : left = chunk := by
  unfold AnyFileProcessor.getNextChunk at h
  split at h
  · exact ((Prod.mk.inj (Prod.mk.inj h).2).1).symm
  · split at h
    · exact ((Prod.mk.inj (Prod.mk.inj h).2).1).symm
    · simp only at h
      split at h
      · rename_i hsize
        unfold Buffer.setSize at hsize
        split at hsize
        · rw [← Except.error.inj hsize] at h
          simp at h
        · contradiction
      · split at h
        · simp at h
        · simp at h
        · simp at h
        · rename_i hgo
          simp only [Prod.mk.injEq, Except.error.injEq] at h
          rw [h.1] at hgo
          exact (hthrows _ _ _ message (congrArg Prod.fst hgo)).elim

theorem setSize_ok {b b' : Buffer} {size : Nat} (h : b.setSize size = .ok b') :
    size ≤ b.capacity ∧ b' = { b with actualSize := size } := by
  unfold Buffer.setSize at h
  split at h
  · contradiction
  · rename_i hle
    exact ⟨not_lt.mp hle, (Except.ok.inj h).symm⟩

/-- The strategy is called with a chunk of the file and with the buffer, which has been enlarged if it
was smaller than that. -/
theorem strategyCall_spec {p : FileProcessingStrategy} {chunk inData outData : Buffer}
    (h : strategyCall p chunk = some (inData, outData)) :
    inData.actualSize ≤ p.chunkSizeBytes ∧
      outData = if 10 * chunk.capacity < 11 * p.chunkSizeBytes then
        chunk.resize (11 * p.chunkSizeBytes / 10) else chunk := by
  unfold strategyCall AnyFileProcessor.getNextChunk at h
  split at h
  · contradiction
  · split at h
    · contradiction
    · simp only at h
      split at h
      · contradiction
      · rename_i inData' hsize
        obtain ⟨rfl, rfl⟩ := Prod.mk.inj (Option.some.inj h)
        obtain ⟨hle, rfl⟩ := setSize_ok hsize
        exact ⟨hle, rfl⟩

/-- The buffer is not yet large enough for a whole chunk and a tenth, and can be enlarged. -/
structure Enlargeable (chunkSize : Nat) (s : AnyServing σ) : Prop where
  bytes : s.processor.chunkSizeBytes = (FileProcessingStrategy.new chunkSize).chunkSizeBytes
  size_le : s.chunk.actualSize ≤ s.chunk.capacity
  capacity_le : s.chunk.capacity ≤ 11 * chunkSize * 1024 / 10

theorem Enlargeable.getNextChunk {protobuf : Protobuf} {compress : CompressWith σ}
    (hthrows : ThrowsNoIOErrors compress) {chunkSize : Nat} {s t : AnyServing σ}
    (hs : Enlargeable chunkSize s) (h : serveAnyChunk protobuf compress s = .ok t) :
    Enlargeable chunkSize t := by
  have hbytes := getNextChunk_chunkSizeBytes compress s.processor s.chunk
  unfold serveAnyChunk at h
  split at h
  · rename_i message chunk processor hget
    rw [hget] at hbytes
    obtain rfl := Except.ok.inj h
    obtain rfl := getNextChunk_ioError hthrows hget
    exact ⟨hbytes.trans hs.bytes, hs.size_le, hs.capacity_le⟩
  · contradiction
  · rename_i usedCompressor chunk processor hget
    rw [hget] at hbytes
    obtain rfl := Except.ok.inj h
    exact ⟨hbytes.trans hs.bytes, Nat.le_refl 0, Nat.zero_le _⟩

theorem Serves.enlargeable {protobuf : Protobuf} {compress : CompressWith σ}
    (hthrows : ThrowsNoIOErrors compress) {chunkSize : Nat} {s : AnyServing σ}
    (hs : Serves protobuf compress chunkSize s) : Enlargeable chunkSize s := by
  induction hs with
  | start hbytes hchunk => exact ⟨hbytes, hchunk ▸ Nat.zero_le _, hchunk ▸ Nat.le_refl _⟩
  | openNextFile _ disk transmissionQueue ih =>
    exact ⟨(openNextFile_chunkSizeBytes disk _).trans ih.bytes, ih.size_le, ih.capacity_le⟩
  | getNextChunk _ ht ih => exact ih.getNextChunk hthrows ht

/-- Whatever has been done before, the output is as large as a whole chunk and a tenth. -/
theorem Enlargeable.capacity {chunkSize : Nat} {s : AnyServing σ} (hs : Enlargeable chunkSize s)
    (hfits : 1024 * chunkSize < 2 ^ 32) {inData outData : Buffer}
    (hcall : strategyCall s.processor.toFileProcessingStrategy s.chunk = some (inData, outData)) :
    inData.actualSize ≤ chunkSize * 1024 ∧ outData.capacity = 11 * (chunkSize * 1024) / 10 := by
  obtain ⟨hle, rfl⟩ := strategyCall_spec hcall
  have hbytes : s.processor.chunkSizeBytes = chunkSize * 1024 :=
    hs.bytes.trans (Nat.mod_eq_of_lt (by omega))
  have hcapacity : s.chunk.capacity ≤ 11 * s.processor.chunkSizeBytes / 10 := by
    rw [hbytes, ← Nat.mul_assoc]
    exact hs.capacity_le
  rw [FileProcessor.resize_eq hs.size_le hcapacity, hbytes]
  exact ⟨hbytes ▸ hle, rfl⟩

/-- The longest chunk that Snappy has room for. -/
def snappyLimit (chunkSize : Nat) : Nat := if chunkSize = 64 then 61763 else 494301

/-- Before every chunk, with any strategy, the output has room for whatever LZO may write, and for
whatever Snappy may write if the chunk is not longer than the limit, and only then. -/
theorem output_fits_iff {protobuf : Protobuf} {compress : CompressWith σ}
    (hthrows : ThrowsNoIOErrors compress) {chunkSize : Nat}
    (hsize : chunkSize = 64 ∨ chunkSize = 512) {s : AnyServing σ}
    (hs : Serves protobuf compress chunkSize s) {inData outData : Buffer}
    (hcall : strategyCall s.processor.toFileProcessingStrategy s.chunk = some (inData, outData))
    {compressor : Compressor} {bytes : Nat}
    (hworst : worstCase compressor inData.actualSize = some bytes) :
    bytes ≤ outData.capacity ↔
      (compressor = .SNAPPY → inData.actualSize ≤ snappyLimit chunkSize) := by
  obtain ⟨hle, hcapacity⟩ := (hs.enlargeable hthrows).capacity (by omega) hcall
  rw [hcapacity, snappyLimit]
  cases compressor with
  | SNAPPY =>
    obtain rfl := Option.some.inj hworst
    rw [forall_prop_of_true rfl]
    rcases hsize with rfl | rfl
    · rw [if_pos rfl]
      omega
    · rw [if_neg (by decide)]
      omega
  | LZO =>
    obtain rfl := Option.some.inj hworst
    refine iff_of_true ?_ Compressor.noConfusion
    rcases hsize with rfl | rfl <;> omega
  | ZLIB | BZIP2 | LZMA | FPC | COPY => contradiction

def wholeChunkProcessor (compressor : σ) : AnyFileProcessor σ :=
  { FileProcessingStrategy.new 64 with
    directoryExplorer := some ⟨ascii "a", ascii "a", .nil, [], ascii "a", true, true⟩
    compressor := compressor }

def wholeChunkServing (compressor : σ) : AnyServing σ :=
  ⟨wholeChunkProcessor compressor, .withCapacity (11 * 64 * 1024 / 10), .empty, .empty, 0, false⟩

def wholeChunkOpened (content : ByteString) (compressor : σ) : AnyServing σ :=
  { wholeChunkServing compressor with
    processor := ((wholeChunkProcessor compressor).openNextFile fun _ => some content).2 }

theorem wholeChunkOpened_serves (protobuf : Protobuf) (compress : CompressWith σ)
    (content : ByteString) (compressor : σ) :
    Serves protobuf compress 64 (wholeChunkOpened content compressor) :=
  .openNextFile (.start (s := wholeChunkServing compressor) rfl rfl) (fun _ => some content) .empty

theorem strategyCall_of_readUpTo {p : FileProcessingStrategy} {file : ByteString}
    (h : p.ReadUpTo file 0) (hne : file ≠ []) (hle : file.length ≤ p.chunkSizeBytes)
    (chunk : Buffer) :
    ∃ inData outData, strategyCall p chunk = some (inData, outData) ∧
      inData.actualSize = file.length := by
  have hmore : p.hasNextChunk = true := by
    rw [h.hasNextChunk, decide_eq_true (List.length_pos_iff.mpr hne)]
  obtain ⟨source, hgo, hcount, -, -⟩ := h.next p.chunkSizeBytes
  rw [List.drop_zero, List.take_of_length_le hle] at hgo hcount
  obtain ⟨inData, hinData, -, -⟩ := FileProcessor.inData_spec file hle
  have hbytes : (p.afterRead source).chunkSizeBytes = p.chunkSizeBytes := rfl
  refine ⟨inData, if 10 * chunk.capacity < 11 * p.chunkSizeBytes then
    chunk.resize (11 * p.chunkSizeBytes / 10) else chunk, ?_, ?_⟩
  · simp only [strategyCall, AnyFileProcessor.getNextChunk, h.isOpen, hmore, Bool.true_eq_false,
      if_false, hgo, hcount, hbytes, hinData]
    rfl
  · rw [(setSize_ok hinData).2]

theorem wholeChunkOpened_call {content : ByteString} (hne : content ≠ [])
    (hle : content.length ≤ 65536) (compressor : σ) :
    ∃ inData outData,
      strategyCall (wholeChunkOpened content compressor).processor.toFileProcessingStrategy
        (wholeChunkOpened content compressor).chunk = some (inData, outData) ∧
      inData.actualSize = content.length := by
  have hopen : (wholeChunkProcessor compressor).openNextFile (fun _ => some content) =
      (.ok content.length, (wholeChunkOpened content compressor).processor) := rfl
  obtain ⟨_, hfile, -, hread, -, -⟩ := readUpTo_of_openNextFile hopen rfl
  obtain rfl := Option.some.inj hfile
  exact strategyCall_of_readUpTo hread hne hle _

def singleSnappy (snappy : Snappy) : CompressWith Unit := fun inData outData s =>
  let (result, outData) := SnappyCompressor.compress snappy inData outData
  (result.map fun _ => .SNAPPY, outData, s)

theorem singleSnappy_throws (snappy : Snappy) : ThrowsNoIOErrors (singleSnappy snappy) := by
  intro inData outData s message h
  simp only [singleSnappy, SnappyCompressor.compress] at h
  split at h
  · simp [Except.map] at h
  · split at h <;> simp [Except.map, Compressor.compressionError] at h

def longestChunk : ByteString := List.replicate (snappyLimit 64) 0

/-- Snappy has room for it, and one byte more would be one too many. -/
theorem output_fits_longest : ∃ inData outData,
    strategyCall (wholeChunkOpened longestChunk ()).processor.toFileProcessingStrategy
        (wholeChunkOpened longestChunk ()).chunk = some (inData, outData) ∧
      (72088 ≤ outData.capacity ↔
        (Compressor.SNAPPY = .SNAPPY → inData.actualSize ≤ snappyLimit 64)) := by
  have hlength : longestChunk.length = 61763 := List.length_replicate
  have hne : longestChunk ≠ [] := List.ne_nil_of_length_pos (by omega)
  obtain ⟨inData, outData, hcall, hsize⟩ := wholeChunkOpened_call hne (by omega) ()
  refine ⟨inData, outData, hcall, output_fits_iff (singleSnappy_throws storingLibraries.snappy)
    (.inl rfl) (wholeChunkOpened_serves protocolBuffers _ longestChunk ()) hcall ?_⟩
  rw [hsize, hlength]
  rfl

/-- Snappy has no room for a whole chunk of 64 kilobytes. -/
theorem output_full_chunk : ¬ ∀ (codecs : Codecs) (s : AnyServing AutomaticCompressionStrategy),
    Serves protocolBuffers (automatic codecs) 64 s → ∀ inData outData,
      strategyCall s.processor.toFileProcessingStrategy s.chunk = some (inData, outData) →
      ∀ bytes, worstCase s.processor.compressor.next.1.1 inData.actualSize = some bytes →
        bytes ≤ outData.capacity := by
  intro h
  set content : ByteString := List.replicate 65536 0 with hcontent
  have hlength : content.length = 65536 := List.length_replicate
  have hne : content ≠ [] := List.ne_nil_of_length_pos (by omega)
  obtain ⟨inData, outData, hcall, hsize⟩ :=
    wholeChunkOpened_call hne hlength.le (AutomaticCompressionStrategy.single .SNAPPY (-1))
  have hserves := wholeChunkOpened_serves protocolBuffers
    (automatic storingCodecs) content (.single .SNAPPY (-1))
  have hfits := h _ _ hserves inData outData hcall _ rfl
  obtain ⟨-, hout⟩ := strategyCall_spec hcall
  have hcapacity : outData.capacity = 72089 := by
    have hbytes : (wholeChunkOpened content
        (AutomaticCompressionStrategy.single .SNAPPY (-1))).processor.chunkSizeBytes = 65536 :=
      openNextFile_chunkSizeBytes _ _
    rw [hout, hbytes]
    exact FileProcessor.resize_eq (n := 65536) (Nat.zero_le _) (Nat.le_refl 72089)
  rw [hsize, hlength, hcapacity] at hfits
  omega

end Autocomp.Server

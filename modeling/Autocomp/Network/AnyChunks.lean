import Autocomp.Compression.AnyStrategy
import Autocomp.Compression.RoundRobinCompressor
import Autocomp.Network.Chunks

/-!
# The chunks of a file with any strategy

The chunk loop of `processRequest` with a `FileProcessor` whose strategy may be any: however often it
gives up, the loop sends a chunk for every piece of the file.
-/

namespace Autocomp.Server

open AnyFileProcessor FileStream FileProcessingStrategy Loop Pieces

structure AnyServing (σ : Type) where
  processor : AnyFileProcessor σ
  chunk : Buffer
  chunkHeaderBuffer : Buffer
  transmissionQueue : TransmissionQueue
  nChunks : Nat
  broken : Bool

variable {σ : Type}

/-- The body of `while (fileProcessor->hasNextChunk())`. -/
def serveAnyChunk (protobuf : Protobuf) (compress : CompressWith σ) (s : AnyServing σ) :
    Except Exn (AnyServing σ) :=
  match s.processor.getNextChunk compress s.chunk with
  | (.error (.ioError _), chunk, processor) =>
    .ok { s with processor := processor, chunk := chunk, broken := true }
  | (.error x, _, _) => .error x
  | (.ok usedCompressor, chunk, processor) =>
    let chunkHeader : ChunkHeader :=
      ⟨some usedCompressor, some (BitVec.ofNat 64 s.nChunks),
        if processor.hasNextChunk then none else some true⟩
    let chunkHeaderBuffer := serializeMessage protobuf.chunkHeader chunkHeader s.chunkHeaderBuffer
    let queue := s.transmissionQueue.push ⟨.header chunkHeader, chunkHeaderBuffer⟩
    .ok { s with
      processor := processor
      chunk := .empty
      chunkHeaderBuffer := .empty
      transmissionQueue := queue.push ⟨.chunk chunk.contents, chunk⟩
      nChunks := s.nChunks + 1 }

def serveAnyChunks (protobuf : Protobuf) (compress : CompressWith σ) :
    Nat → AnyServing σ → Option (Except Exn (AnyServing σ)) :=
  whileLoop (fun s => !s.broken && s.processor.hasNextChunk)
    fun _ s => some (serveAnyChunk protobuf compress s)

def ServingFile.toAny (s : ServingFile) (p : FileProcessor) :
    AnyServing AutomaticCompressionStrategy :=
  ⟨ofFileProcessor p, s.chunk, s.chunkHeaderBuffer, s.transmissionQueue, s.nChunks, s.broken⟩

def AnyServing.toServingFile (t : AnyServing AutomaticCompressionStrategy) (s : ServingFile) :
    ServingFile :=
  { s with
    processor := .file ⟨t.processor.toFileProcessingStrategy, t.processor.compressor⟩
    chunk := t.chunk
    chunkHeaderBuffer := t.chunkHeaderBuffer
    transmissionQueue := t.transmissionQueue
    nChunks := t.nChunks
    broken := t.broken }

/-- For these the round is that of `serveChunk`. -/
theorem serveChunk_eq (host : Host) {s : ServingFile} {p : FileProcessor}
    (hprocessor : s.processor = .file p) : serveChunk host s =
      (serveAnyChunk host.protobuf (automatic host.codecs) (s.toAny p)).map
        fun t => t.toServingFile s := by
  unfold serveChunk serveAnyChunk
  rw [hprocessor, Processor.getNextChunk]
  simp only [ServingFile.toAny, getNextChunk_ofFileProcessor]
  rcases p.getNextChunk host.codecs s.chunk with ⟨_ | c, chunk, q⟩
  · rename_i x
    cases x <;> rfl
  · rfl

/-- How the variables stand whenever the loop tests its condition. -/
structure AnyServing.Ready (s : AnyServing σ) : Prop where
  header : s.chunkHeaderBuffer = .empty
  unbroken : s.broken = false

/-- From `s` to `t` the loop has sent `chunks`. -/
structure AnySent (protobuf : Protobuf) (s t : AnyServing σ)
    (chunks : List (Compressor × ByteString)) : Prop where
  unbroken : t.broken = false
  done : t.processor.hasNextChunk = false
  meanings : t.transmissionQueue.meanings =
    s.transmissionQueue.meanings ++ chunkMessages s.nChunks chunks
  faithful : s.transmissionQueue.Faithful protobuf → t.transmissionQueue.Faithful protobuf

theorem serveAnyChunk_ok (protobuf : Protobuf) {compress : CompressWith σ} {s : AnyServing σ}
    (hready : s.Ready) {c : Compressor} {chunk : Buffer} {p : AnyFileProcessor σ}
    (h : s.processor.getNextChunk compress s.chunk = (.ok c, chunk, p)) :
    ∃ t, serveAnyChunk protobuf compress s = .ok t ∧ t.Ready ∧ t.processor = p ∧
      t.nChunks = s.nChunks + 1 ∧
      t.transmissionQueue.meanings = s.transmissionQueue.meanings ++
        [.header ⟨some c, some (BitVec.ofNat 64 s.nChunks),
          if p.hasNextChunk then none else some true⟩, .chunk chunk.contents] ∧
      (s.transmissionQueue.Faithful protobuf → t.transmissionQueue.Faithful protobuf) := by
  simp only [serveAnyChunk, h]
  refine ⟨_, rfl, ⟨rfl, hready.unbroken⟩, rfl, rfl, ?_, ?_⟩
  · simp
  · intro hfaithful
    apply (hfaithful.push _).push rfl
    rw [hready.header]
    exact serializeMessage_contents ..

theorem serveAnyChunks_outputs (protobuf : Protobuf) {compress : CompressWith σ}
    (hthrows : ThrowsCompressionErrors compress) {ps : List ByteString} {s : AnyServing σ}
    (hpos : 0 < s.processor.chunkSizeBytes) (hready : s.Ready)
    (h : PiecesLeft s.processor.toFileProcessingStrategy ps) :
    ∃ t chunks, Yields (fun fuel => serveAnyChunks protobuf compress fuel s) (.ok t) ∧
      AnySent protobuf s t chunks ∧
      Outputs compress s.processor.compressor ps chunks t.processor.compressor := by
  induction ps generalizing s with
  | nil =>
    have hdone : s.processor.hasNextChunk = false := h.hasNextChunk
    refine ⟨s, [], ?_, ⟨hready.unbroken, hdone, (List.append_nil _).symm, id⟩, .nil⟩
    apply whileLoop_stop
    rw [hdone, Bool.and_false]
  | cons piece ps ih =>
    obtain ⟨c, chunk, p, hget, hgives, hleft, hsize⟩ :=
      getNextChunk_gives hthrows hpos h s.chunk
    obtain ⟨t, hround, hready', hprocessor, hcount, hmeanings, hfaithful⟩ :=
      serveAnyChunk_ok protobuf hready hget
    rw [← hprocessor] at hgives hleft hsize
    obtain ⟨u, chunks, hyields, hsent, houtputs⟩ := ih (hsize ▸ hpos) hready' hleft
    refine ⟨u, (c, chunk.contents) :: chunks, ?_, ⟨hsent.unbroken, hsent.done, ?_, ?_⟩,
      .cons hgives houtputs⟩
    · apply whileLoop_next _ _ hyields
      · rw [hready.unbroken]
        exact h.hasNextChunk
      · rw [hround]
        exact .const _
    · -- the last header is the one with no piece behind it
      have hlast : p.hasNextChunk = decide (chunks ≠ []) := by
        rw [← hprocessor, hleft.hasNextChunk]
        have hlength := houtputs.length_eq
        cases ps <;> cases chunks <;> simp_all
      rw [hsent.meanings, hmeanings, hcount, chunkMessages, hlast, List.append_assoc]
      by_cases hnil : chunks = [] <;> simp [hnil]
    · intro hs
      exact hsent.faithful (hfaithful hs)

/-- Whatever the strategy does, a file is read in its pieces: a chunk for each, which is the piece or
what the strategy made of it, in order, and only the last header marked. -/
theorem any_strategy_sends_pieces {compress : CompressWith σ}
    (hthrows : ThrowsCompressionErrors compress) (protobuf : Protobuf) {disk : Disk Path}
    {p q : AnyFileProcessor σ} {chunkSize fileSize : Nat}
    (hchunkSize : p.chunkSizeBytes = (FileProcessingStrategy.new chunkSize).chunkSizeBytes)
    (hpos : 0 < 1024 * chunkSize) (hfits : 1024 * chunkSize < 2 ^ 32)
    (hmore : p.hasNextFile = true) (hopen : p.openNextFile disk = (.ok fileSize, q)) :
    ∃ content, disk q.currentFileName = some content ∧ fileSize = content.length ∧
      (∀ i < (content.length + 1024 * chunkSize - 1) / (1024 * chunkSize),
        (pieces (1024 * chunkSize) content)[i]? =
          some ((content.drop (i * (1024 * chunkSize))).take (1024 * chunkSize))) ∧
      (∀ chunk : Nat → Buffer, ∃ q' chunks,
        Yields (fun fuel => getChunks compress chunk fuel ⟨q, []⟩) (.ok ⟨q', chunks⟩) ∧
        q'.hasNextChunk = false ∧
        chunks.length = (content.length + 1024 * chunkSize - 1) / (1024 * chunkSize) ∧
        Outputs compress p.compressor (pieces (1024 * chunkSize) content) chunks q'.compressor) ∧
      ∀ s : AnyServing σ, s.processor = q → s.Ready → s.nChunks = 0 → ∃ t chunks,
        Yields (fun fuel => serveAnyChunks protobuf compress fuel s) (.ok t) ∧
        t.broken = false ∧ t.processor.hasNextChunk = false ∧
        chunks.length = (content.length + 1024 * chunkSize - 1) / (1024 * chunkSize) ∧
        Outputs compress p.compressor (pieces (1024 * chunkSize) content) chunks
          t.processor.compressor ∧
        t.transmissionQueue.meanings = s.transmissionQueue.meanings ++ chunkMessages 0 chunks ∧
        (s.transmissionQueue.Faithful protobuf → t.transmissionQueue.Faithful protobuf) := by
  obtain ⟨content, hfile, hsize, hread, hcompressor, hbytes⟩ :=
    readUpTo_of_openNextFile hopen hmore
  have hchunkBytes : q.chunkSizeBytes = 1024 * chunkSize := by
    rw [hbytes, hchunkSize]
    change chunkSize * 1024 % 2 ^ 32 = _
    rw [Nat.mul_comm]
    exact Nat.mod_eq_of_lt hfits
  have hqpos : 0 < q.chunkSizeBytes := hchunkBytes ▸ hpos
  have hleft := piecesLeft_of_readUpTo hqpos hread
  rw [List.drop_zero, hchunkBytes] at hleft
  have hcount : (pieces (1024 * chunkSize) content).length =
      (content.length + 1024 * chunkSize - 1) / (1024 * chunkSize) := pieces_length hpos content
  refine ⟨content, hfile, hsize, ?_, ?_, ?_⟩
  · intro i hi
    apply getElem?_pieces
    rw [hcount]
    exact hi
  · intro chunk
    obtain ⟨q', chunks, hyields, hdone, houtputs⟩ :=
      getChunks_outputs hthrows chunk (s := ⟨q, []⟩) hqpos hleft
    refine ⟨q', chunks, hyields, hdone, houtputs.length_eq.trans hcount, ?_⟩
    rw [← hcompressor]
    exact houtputs
  · rintro s rfl hready hzero
    obtain ⟨t, chunks, hyields, hsent, houtputs⟩ :=
      serveAnyChunks_outputs protobuf hthrows hqpos hready hleft
    refine ⟨t, chunks, hyields, hsent.unbroken, hsent.done, houtputs.length_eq.trans hcount, ?_,
      ?_, hsent.faithful⟩
    · rw [← hcompressor]
      exact houtputs
    · rw [hsent.meanings, hzero]

def roundRobin (codecs : Codecs) (elapsedTime : Int) : CompressWith RoundRobinCompressor :=
  fun inData outData r => r.compress codecs elapsedTime inData outData

theorem roundRobin_throws {codecs : Codecs} (elapsedTime : Int)
    (hlibrary : ∀ c level inData outData x,
      ((codecs.library c level).compress inData outData).1 = .error x →
        ∃ name inputSize outputCapacity message,
          x = .compressionError name inputSize outputCapacity message) :
    ThrowsCompressionErrors (roundRobin codecs elapsedTime) := by
  intro inData outData r x hx
  obtain ⟨htried, -⟩ := RoundRobinCompressor.compress_spec codecs elapsedTime inData outData r
  have hthrown := congrArg Prod.fst htried
  change (roundRobin codecs elapsedTime inData outData r).1 = _ at hthrown
  rw [hx, RoundRobinCompressor.tried] at hthrown
  split at hthrown
  · contradiction
  · rename_i hcopy
    have hstrategy : codecs.strategy r.selected.1 r.selected.2 =
        codecs.library r.selected.1 r.selected.2 := by
      have hfpc : ∀ entry ∈ RoundRobinCompressor.compressors, entry.1 ≠ .FPC := by decide
      have hne := hfpc _ r.selected_mem
      revert hne
      cases r.selected.1 <;> intro hne <;> first | rfl | exact absurd rfl hne
    apply hlibrary r.selected.1 r.selected.2 inData outData
    rw [← hstrategy]
    split at hthrown
    · contradiction
    · rename_i hgo
      rw [hgo]
      exact congrArg Except.error (Except.error.inj hthrown).symm

theorem storing_throws (c : Compressor) (level : Int) (inData outData : Buffer) (x : Exn)
    (h : ((RoundRobinCompressor.storingCodecs.library c level).compress inData outData).1 =
      .error x) : ∃ name inputSize outputCapacity message,
      x = .compressionError name inputSize outputCapacity message := by
  simp only [RoundRobinCompressor.storingCodecs, RoundRobinCompressor.storing] at h
  split at h
  · contradiction
  · exact ⟨_, _, _, _, (Except.error.inj h).symm⟩

def roundRobinProcessor : AnyFileProcessor RoundRobinCompressor :=
  { FileProcessingStrategy.new 1 with
    directoryExplorer := some ⟨ascii "a", ascii "a", .nil, [], ascii "a", true, true⟩
    compressor := .new }

def roundRobinOpened (content : ByteString) : AnyFileProcessor RoundRobinCompressor :=
  (roundRobinProcessor.openNextFile fun _ => some content).2

/-- 2500 bytes are three chunks. -/
theorem roundRobin_sends_pieces : ∃ q' chunks,
    Yields (fun fuel => getChunks (roundRobin RoundRobinCompressor.storingCodecs 0)
      (fun _ => .empty) fuel ⟨roundRobinOpened (List.replicate 2500 7), []⟩) (.ok ⟨q', chunks⟩) ∧
    chunks.length = 3 := by
  have hlength : (List.replicate 2500 7 : ByteString).length = 2500 := List.length_replicate
  generalize (List.replicate 2500 7 : ByteString) = file at hlength
  have hsize : roundRobinProcessor.chunkSizeBytes =
      (FileProcessingStrategy.new 1).chunkSizeBytes := rfl
  have hopen : roundRobinProcessor.openNextFile (fun _ => some file) =
      (.ok file.length, roundRobinOpened file) := rfl
  obtain ⟨content, hfile, -, -, hchunks, -⟩ := any_strategy_sends_pieces
    (roundRobin_throws 0 storing_throws) protocolBuffers hsize (by decide) (by decide) rfl hopen
  obtain ⟨q', chunks, hyields, -, hcount, -⟩ := hchunks fun _ => .empty
  refine ⟨q', chunks, hyields, hcount.trans ?_⟩
  rw [← Option.some.inj hfile, hlength]

end Autocomp.Server

import Autocomp.Compression.Encoding
import Autocomp.Lib.Loop

/-!
# File processors with any strategy

`FileProcessor` again, with an object of any class that implements `AutomaticCompressionStrategy`:
a state, and a function that may do to the output buffer what it likes and may throw a
`CompressionError`.
-/

namespace Autocomp

open FileStream FileProcessingStrategy Loop Pieces

/-- `compress` of the class, on an object of state `σ`. -/
abbrev CompressWith (σ : Type) := Buffer → Buffer → σ → Except Exn Compressor × Buffer × σ

/-- Nothing but `CompressionError`s is thrown. -/
def ThrowsCompressionErrors {σ : Type} (compress : CompressWith σ) : Prop :=
  ∀ inData outData s x, (compress inData outData s).1 = .error x →
    ∃ name inputSize outputCapacity message,
      x = .compressionError name inputSize outputCapacity message

structure AnyFileProcessor (σ : Type) extends FileProcessingStrategy where
  compressor : σ

namespace AnyFileProcessor

variable {σ : Type}

def openNextFile (disk : Disk Path) (p : AnyFileProcessor σ) :
    Except Exn Nat × AnyFileProcessor σ :=
  if p.hasNextFile then
    match p.takeNextFile disk with
    | (.error x, s) => (.error x, { p with toFileProcessingStrategy := s })
    | (.ok (), s) =>
      let s := { s with source := s.source.openFile (disk s.currentFileName) }
      if s.source.fail then
        (.error (.ioError (ascii "Could not open current file: " ++ s.currentFileName)),
          { p with toFileProcessingStrategy := s })
      else
        let s := { s.calculateFileSize with currentFileReadBytes := 0 }
        (.ok s.currentFileSize, { p with toFileProcessingStrategy := s })
  else (.ok 0, p)

variable (compress : CompressWith σ)

/-- `getNextChunk`: its outcome, the chunk's buffer and the processor. -/
def getNextChunk (p : AnyFileProcessor σ) (chunk : Buffer) :
    Except Exn Compressor × Buffer × AnyFileProcessor σ :=
  if p.source.isOpen = false then (.error p.notOpenError, chunk, p)
  else if p.hasNextChunk = false then (.error p.noMoreDataError, chunk, p)
  else
    let chunk :=
      if 10 * chunk.capacity < 11 * p.chunkSizeBytes then chunk.resize (11 * p.chunkSizeBytes / 10)
      else chunk
    let (bytes, source) := p.source.read p.chunkSizeBytes
    let p := { p with toFileProcessingStrategy := p.afterRead source }
    match ((Buffer.withCapacity p.chunkSizeBytes).overwrite bytes).setSize source.count with
    | .error x => (.error x, chunk, p)
    | .ok inData =>
      match compress inData chunk p.compressor with
      | (.ok .COPY, chunk, compressor) => (.ok .COPY, (chunk.swap inData).1, { p with compressor })
      | (.ok usedCompressor, chunk, compressor) => (.ok usedCompressor, chunk, { p with compressor })
      | (.error (.compressionError ..), chunk, compressor) =>
        (.ok .COPY, (chunk.swap inData).1, { p with compressor })
      | (.error x, chunk, compressor) => (.error x, chunk, { p with compressor })

structure Iteration (σ : Type) where
  processor : AnyFileProcessor σ
  chunks : List (Compressor × ByteString)

def Iteration.next (chunk : Nat → Buffer) (s : Iteration σ) : Except Exn (Iteration σ) :=
  match s.processor.getNextChunk compress (chunk s.chunks.length) with
  | (.ok usedCompressor, chunk, p) => .ok ⟨p, s.chunks ++ [(usedCompressor, chunk.contents)]⟩
  | (.error x, _, _) => .error x

/-- `while (hasNextChunk()) getNextChunk(chunk)`, with any buffer for each chunk. -/
def getChunks (chunk : Nat → Buffer) : Nat → Iteration σ → Option (Except Exn (Iteration σ)) :=
  whileLoop (fun s => s.processor.hasNextChunk) fun _ s => some (s.next compress chunk)

/-- What a strategy in state `s` makes of a piece, and the state it is left in. -/
inductive Gives (piece : ByteString) (s : σ) : Compressor → ByteString → σ → Prop
  | copied {inData outData left : Buffer} {s' : σ} (hin : inData.contents = piece)
      (hgo : compress inData outData s = (.ok .COPY, left, s')) : Gives piece s .COPY piece s'
  | failed {inData outData left : Buffer} {s' : σ} {x : Exn} (hin : inData.contents = piece)
      (hgo : compress inData outData s = (.error x, left, s')) : Gives piece s .COPY piece s'
  | compressed {inData outData compressed : Buffer} {c : Compressor} {s' : σ}
      (hin : inData.contents = piece) (hcopy : c ≠ .COPY)
      (hgo : compress inData outData s = (.ok c, compressed, s')) :
      Gives piece s c compressed.contents s'

/-- What it makes of one piece after the other. -/
inductive Outputs : σ → List ByteString → List (Compressor × ByteString) → σ → Prop
  | nil {s : σ} : Outputs s [] [] s
  | cons {s s' t : σ} {piece bytes : ByteString} {pieces : List ByteString} {c : Compressor}
      {chunks : List (Compressor × ByteString)} (hchunk : Gives compress piece s c bytes s')
      (hrest : Outputs s' pieces chunks t) : Outputs s (piece :: pieces) ((c, bytes) :: chunks) t

variable {compress}

theorem Outputs.length_eq {s t : σ} {pieces : List ByteString}
    {chunks : List (Compressor × ByteString)} (h : Outputs compress s pieces chunks t) :
    chunks.length = pieces.length := by
  induction h with
  | nil => rfl
  | cons _ _ ih => rw [List.length_cons, List.length_cons, ih]

/-- A file of which some pieces have yet to be read. -/
structure PiecesLeft (s : FileProcessingStrategy) (ps : List ByteString) : Prop where
  hasNextChunk : s.hasNextChunk = decide (ps ≠ [])
  reading : ps ≠ [] → ∃ file k, s.ReadUpTo file k ∧ k < file.length ∧
    ps = pieces s.chunkSizeBytes (file.drop k)

theorem piecesLeft_of_readUpTo {s : FileProcessingStrategy} {file : ByteString} {k : Nat}
    (hpos : 0 < s.chunkSizeBytes) (h : s.ReadUpTo file k) :
    PiecesLeft s (pieces s.chunkSizeBytes (file.drop k)) := by
  have hmore := h.hasNextChunk
  by_cases hk : k < file.length
  · have hne : file.drop k ≠ [] := by
      rw [ne_eq, List.drop_eq_nil_iff]
      omega
    constructor
    · rw [hmore, decide_eq_true hk, pieces_of_ne hpos hne]
      rfl
    · intro _
      exact ⟨file, k, h, hk, rfl⟩
  · rw [List.drop_of_length_le (by omega), pieces_nil]
    constructor
    · rw [hmore, decide_eq_false hk]
      rfl
    · intro hne
      contradiction

theorem PiecesLeft.next {s : FileProcessingStrategy} {piece : ByteString} {ps : List ByteString}
    (hpos : 0 < s.chunkSizeBytes) (h : PiecesLeft s (piece :: ps)) : ∃ source,
    s.source.read s.chunkSizeBytes = (piece, source) ∧ source.count = piece.length ∧
      piece.length ≤ s.chunkSizeBytes ∧ s.source.isOpen = true ∧
      PiecesLeft (s.afterRead source) ps := by
  obtain ⟨file, k, hread, hk, hpieces⟩ := h.reading (List.cons_ne_nil piece ps)
  rw [pieces_of_ne hpos (by rw [ne_eq, List.drop_eq_nil_iff]; omega), List.cons.injEq,
    List.drop_drop] at hpieces
  obtain ⟨hpiece, hps⟩ := hpieces
  obtain ⟨source, hgo, hcount, hmore, hnext⟩ := hread.next s.chunkSizeBytes
  rw [← hpiece] at hgo hcount
  have hle : piece.length ≤ s.chunkSizeBytes := by
    rw [hpiece]
    exact List.length_take_le ..
  refine ⟨source, hgo, hcount, hle, hread.isOpen, ?_⟩
  by_cases hlt : k + s.chunkSizeBytes < file.length
  · rw [hps]
    exact piecesLeft_of_readUpTo hpos (hnext hlt)
  · rw [List.drop_of_length_le (by omega), pieces_nil] at hps
    rw [hps]
    constructor
    · rw [hmore, decide_eq_false hlt]
      rfl
    · intro hne
      contradiction

theorem getNextChunk_gives (hthrows : ThrowsCompressionErrors compress) {p : AnyFileProcessor σ}
    {piece : ByteString} {ps : List ByteString} (hpos : 0 < p.chunkSizeBytes)
    (h : PiecesLeft p.toFileProcessingStrategy (piece :: ps)) (chunk : Buffer) :
    ∃ c chunk' p', p.getNextChunk compress chunk = (.ok c, chunk', p') ∧
      Gives compress piece p.compressor c chunk'.contents p'.compressor ∧
      PiecesLeft p'.toFileProcessingStrategy ps ∧ p'.chunkSizeBytes = p.chunkSizeBytes := by
  have hmore : p.hasNextChunk = true := h.hasNextChunk
  obtain ⟨source, hread, hcount, hle, hopen, hleft⟩ := h.next hpos
  obtain ⟨inData, hinData, hcontents, -⟩ := FileProcessor.inData_spec piece hle
  have hbytes : (p.afterRead source).chunkSizeBytes = p.chunkSizeBytes := rfl
  simp only [getNextChunk, hopen, hmore, Bool.true_eq_false, if_false, hread, hcount, hbytes,
    hinData]
  generalize hout : (if 10 * chunk.capacity < 11 * p.chunkSizeBytes then
    chunk.resize (11 * p.chunkSizeBytes / 10) else chunk) = outData
  rcases hgo : compress inData outData p.compressor with ⟨result, left, s⟩
  cases result with
  | error x =>
    obtain ⟨name, inputSize, outputCapacity, message, rfl⟩ :=
      hthrows inData outData p.compressor x (by rw [hgo])
    refine ⟨.COPY, inData, { p with
      toFileProcessingStrategy := p.afterRead source, compressor := s }, rfl, ?_, hleft, rfl⟩
    rw [hcontents]
    exact .failed hcontents hgo
  | ok c =>
    by_cases hcopy : c = .COPY
    · subst hcopy
      refine ⟨.COPY, inData, { p with
        toFileProcessingStrategy := p.afterRead source, compressor := s }, rfl, ?_, hleft, rfl⟩
      rw [hcontents]
      exact .copied hcontents hgo
    · refine ⟨c, left, { p with
        toFileProcessingStrategy := p.afterRead source, compressor := s }, ?_,
        .compressed hcontents hcopy hgo, hleft, rfl⟩
      cases c <;> first | rfl | exact absurd rfl hcopy

/-- The loop gives a chunk for every piece. -/
theorem getChunks_outputs (hthrows : ThrowsCompressionErrors compress) (chunk : Nat → Buffer)
    {ps : List ByteString} {s : Iteration σ} (hpos : 0 < s.processor.chunkSizeBytes)
    (h : PiecesLeft s.processor.toFileProcessingStrategy ps) :
    ∃ q chunks, Yields (fun fuel => getChunks compress chunk fuel s) (.ok ⟨q, s.chunks ++ chunks⟩) ∧
      q.hasNextChunk = false ∧ Outputs compress s.processor.compressor ps chunks q.compressor := by
  induction ps generalizing s with
  | nil =>
    have hdone : s.processor.hasNextChunk = false := h.hasNextChunk
    refine ⟨s.processor, [], ?_, hdone, .nil⟩
    rw [List.append_nil]
    exact whileLoop_stop hdone
  | cons piece ps ih =>
    obtain ⟨c, chunk', p', hget, hgives, hleft, hsize⟩ :=
      getNextChunk_gives hthrows hpos h (chunk s.chunks.length)
    obtain ⟨q, chunks, hyields, hdone, houtputs⟩ :=
      ih (s := ⟨p', s.chunks ++ [(c, chunk'.contents)]⟩) (by rw [hsize]; exact hpos) hleft
    rw [List.append_assoc, List.singleton_append] at hyields
    refine ⟨q, (c, chunk'.contents) :: chunks, ?_, hdone, .cons hgives houtputs⟩
    apply whileLoop_next _ _ hyields
    · exact h.hasNextChunk
    · rw [Iteration.next, hget]
      exact .const _

theorem readUpTo_of_openNextFile {disk : Disk Path} {p q : AnyFileProcessor σ} {fileSize : Nat}
    (h : p.openNextFile disk = (.ok fileSize, q)) (hmore : p.hasNextFile = true) :
    ∃ content, disk q.currentFileName = some content ∧ fileSize = content.length ∧
      q.ReadUpTo content 0 ∧ q.compressor = p.compressor ∧ q.chunkSizeBytes = p.chunkSizeBytes := by
  obtain ⟨hclosed, -, hbytes⟩ := p.takeNextFile_kept disk
  simp only [openNextFile, hmore, if_true] at h
  generalize p.takeNextFile disk = r at h hclosed hbytes
  obtain ⟨_ | _, s⟩ := r
  · simp at h
  · simp only at h hclosed hbytes
    cases hfile : disk s.currentFileName with
    | none => simp [hfile, InStream.openFile] at h
    | some content =>
      rw [hfile, InStream.openFile_some hclosed] at h
      simp only [Bool.false_eq_true, if_false, Prod.mk.injEq, Except.ok.injEq] at h
      obtain ⟨rfl, rfl⟩ := h
      exact ⟨content, hfile, rfl, ⟨rfl, rfl, rfl, rfl, rfl, rfl, rfl⟩, rfl, hbytes⟩

/-- `FileProcessor` is the case of the strategies that a request can set up. -/
def ofFileProcessor (p : FileProcessor) : AnyFileProcessor AutomaticCompressionStrategy :=
  ⟨p.toFileProcessingStrategy, p.compressor⟩

def automatic (codecs : Codecs) : CompressWith AutomaticCompressionStrategy :=
  fun inData outData s => s.compress codecs inData outData

theorem openNextFile_ofFileProcessor (disk : Disk Path) (p : FileProcessor) :
    (ofFileProcessor p).openNextFile disk =
      ((p.openNextFile disk).1, ofFileProcessor (p.openNextFile disk).2) := by
  unfold openNextFile FileProcessor.openNextFile ofFileProcessor
  by_cases hmore : p.hasNextFile = true
  · rw [if_pos hmore, if_pos hmore]
    rcases p.takeNextFile disk with ⟨_ | _, s⟩
    · rfl
    · by_cases hfail : (s.source.openFile (disk s.currentFileName)).fail = true
      · simp only [if_pos hfail]
      · simp only [if_neg hfail]
  · rw [if_neg hmore, if_neg hmore]

theorem getNextChunk_ofFileProcessor (codecs : Codecs) (p : FileProcessor) (chunk : Buffer) :
    (ofFileProcessor p).getNextChunk (automatic codecs) chunk =
      ((p.getNextChunk codecs chunk).1, (p.getNextChunk codecs chunk).2.1,
        ofFileProcessor (p.getNextChunk codecs chunk).2.2) := by
  unfold getNextChunk FileProcessor.getNextChunk ofFileProcessor automatic
  by_cases hclosed : p.source.isOpen = false
  · rw [if_pos hclosed, if_pos hclosed]
  · rw [if_neg hclosed, if_neg hclosed]
    by_cases hdone : p.hasNextChunk = false
    · rw [if_pos hdone, if_pos hdone]
    · rw [if_neg hdone, if_neg hdone]
      simp only
      generalize ((Buffer.withCapacity _).overwrite _).setSize _ = inData
      cases inData with
      | error x => rfl
      | ok inData =>
        simp only
        generalize AutomaticCompressionStrategy.compress codecs inData _ p.compressor = result
        obtain ⟨_ | c, left, s⟩ := result
        · rename_i x
          cases x <;> rfl
        · cases c <;> rfl

end AnyFileProcessor

end Autocomp

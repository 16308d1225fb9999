import Autocomp.Compression.Strategies
import Autocomp.Files.DirectoryExplorer

/-!
# File processors

`FileProcessingStrategy`, the base class that walks the files, and `FileProcessor`, which reads a
file in chunks and has a strategy compress each. Products with 1.1 are rounded down to bytes.
-/

namespace Autocomp

open FileStream

structure FileProcessingStrategy where
  workingPath : Path
  currentFileName : Path
  source : InStream
  currentFileSize : Nat
  currentFileReadBytes : Nat
  chunkSize : Nat
  chunkSizeBytes : Nat
  directoryExplorer : Option DirectoryExplorer

namespace FileProcessingStrategy

/-- The constructor. The product is one of 32-bit integers. -/
def new (chunkSize : Nat) : FileProcessingStrategy :=
  ⟨[], [], .closed, 0, 0, chunkSize, chunkSize * 1024 % 2 ^ 32, none⟩

/-- `preparePath`, given what the path names. -/
def preparePath (disk : Disk Path) (path : Path) (root : Except Nat Node)
    (s : FileProcessingStrategy) : Except Exn FileProcessingStrategy :=
  (DirectoryExplorer.explore disk path root).map fun e =>
    { s with workingPath := path, directoryExplorer := some e }

def hasNextFile (s : FileProcessingStrategy) : Bool :=
  match s.directoryExplorer with
  | some e => e.hasNextFile
  | none => false

def hasNextChunk (s : FileProcessingStrategy) : Bool :=
  !s.source.eof && !s.source.fail && decide (s.currentFileReadBytes < s.currentFileSize)

def calculateFileSize (s : FileProcessingStrategy) : FileProcessingStrategy :=
  let source := s.source.seek s.source.content.length
  { s with source := source.seek 0, currentFileSize := source.tell }

/-- The start of both `openNextFile`s, once there is a next file: the stream is closed and the
name is set. -/
def takeNextFile (disk : Disk Path) (s : FileProcessingStrategy) :
    Except Exn Unit × FileProcessingStrategy :=
  let s := if s.source.isOpen then { s with source := s.source.close } else s
  match s.directoryExplorer with
  | none => (.error .undefinedBehaviour, s)
  | some e =>
    match e.getNextFileName disk with
    | (.ok name, e) => (.ok (), { s with directoryExplorer := some e, currentFileName := name })
    | (.error x, e) => (.error x, { s with directoryExplorer := some e })

theorem takeNextFile_kept (disk : Disk Path) (s : FileProcessingStrategy) :
    (s.takeNextFile disk).2.source.isOpen = false ∧
      (s.takeNextFile disk).2.chunkSize = s.chunkSize ∧
      (s.takeNextFile disk).2.chunkSizeBytes = s.chunkSizeBytes := by
  set t := if s.source.isOpen then { s with source := s.source.close } else s with ht
  have hkept : t.source.isOpen = false ∧ t.chunkSize = s.chunkSize ∧
      t.chunkSizeBytes = s.chunkSizeBytes := by
    cases h : s.source.isOpen <;> simp [ht, h, InStream.close]
  unfold takeNextFile
  simp only [← ht]
  split
  · exact hkept
  · split <;> exact hkept

def afterRead (s : FileProcessingStrategy) (source : InStream) : FileProcessingStrategy :=
  { s with source := source, currentFileReadBytes := s.currentFileReadBytes + source.count }

/-- `k` bytes of an open file have been read in full chunks. -/
structure ReadUpTo (s : FileProcessingStrategy) (file : ByteString) (k : Nat) : Prop where
  isOpen : s.source.isOpen = true
  content : s.source.content = file
  position : s.source.position = k
  eof : s.source.eof = false
  fail : s.source.fail = false
  read : s.currentFileReadBytes = k
  size : s.currentFileSize = file.length

theorem ReadUpTo.hasNextChunk {s : FileProcessingStrategy} {file : ByteString} {k : Nat}
    (h : s.ReadUpTo file k) : s.hasNextChunk = decide (k < file.length) := by
  simp [FileProcessingStrategy.hasNextChunk, h.eof, h.fail, h.read, h.size]

/-- The next `n` bytes, or what there is of them, are read, and there is more if there are more
bytes. -/
theorem ReadUpTo.next {s : FileProcessingStrategy} {file : ByteString} {k : Nat}
    (h : s.ReadUpTo file k) (n : Nat) : ∃ source,
    s.source.read n = ((file.drop k).take n, source) ∧
      source.count = ((file.drop k).take n).length ∧
      (s.afterRead source).hasNextChunk = decide (k + n < file.length) ∧
      (k + n < file.length → (s.afterRead source).ReadUpTo file (k + n)) := by
  set piece := (file.drop k).take n with hpiece
  have hlen : piece.length = min n (file.length - k) := by
    rw [hpiece, List.length_take, List.length_drop]
  refine ⟨{ s.source with
    position := k + piece.length, eof := decide (piece.length < n),
    fail := decide (piece.length < n), count := piece.length }, ?_, rfl, ?_, ?_⟩
  · simp only [InStream.read, h.eof, h.fail, h.content, h.position, Bool.false_eq_true, or_self,
      if_false, ← hpiece]
  · simp only [FileProcessingStrategy.hasNextChunk, FileProcessingStrategy.afterRead, h.read, h.size]
    rw [Bool.eq_iff_iff]
    simp only [Bool.and_eq_true, Bool.not_eq_true', decide_eq_false_iff_not, decide_eq_true_eq]
    omega
  · intro hlt
    have hfull : piece.length = n := by omega
    simp only [hfull]
    exact ⟨h.isOpen, h.content, rfl, by simp [FileProcessingStrategy.afterRead],
      by simp [FileProcessingStrategy.afterRead], congrArg (· + n) h.read, h.size⟩

def notOpenError (s : FileProcessingStrategy) : Exn :=
  .ioError (ascii "There is no open input stream for the current file " ++ s.currentFileName)

def noMoreDataError (s : FileProcessingStrategy) : Exn :=
  .ioError (ascii "There is no more data to read from the input stream corresponding to the " ++
    ascii "current file " ++ s.currentFileName)

end FileProcessingStrategy

structure FileProcessor extends FileProcessingStrategy where
  compressor : AutomaticCompressionStrategy

namespace FileProcessor

def new (chunkSize : Nat) (compressor : AutomaticCompressionStrategy) : FileProcessor :=
  ⟨.new chunkSize, compressor⟩

def openNextFile (disk : Disk Path) (p : FileProcessor) : Except Exn Nat × FileProcessor :=
  if p.hasNextFile then
    match p.takeNextFile disk with
    | (.error x, s) => (.error x, { p with toFileProcessingStrategy := s })
    | (.ok (), s) =>
      let s := { s with source := s.source.openFile (disk s.currentFileName) }
      if s.source.fail then
        (.error (.ioError (ascii "Could not open current file: " ++ s.currentFileName)),
          { p with toFileProcessingStrategy := s })
      else
        let s := { s.calculateFileSize with currentFileReadBytes := 0 }
        (.ok s.currentFileSize, { p with toFileProcessingStrategy := s })
  else (.ok 0, p)

/-- `getNextChunk`: its outcome, the chunk's buffer and the processor. -/
def getNextChunk (codecs : Codecs) (p : FileProcessor) (chunk : Buffer) :
    Except Exn Compressor × Buffer × FileProcessor :=
  if p.source.isOpen = false then (.error p.notOpenError, chunk, p)
  else if p.hasNextChunk = false then (.error p.noMoreDataError, chunk, p)
  else
    let chunk :=
      if 10 * chunk.capacity < 11 * p.chunkSizeBytes then chunk.resize (11 * p.chunkSizeBytes / 10)
      else chunk
    let (bytes, source) := p.source.read p.chunkSizeBytes
    let p := { p with toFileProcessingStrategy := p.afterRead source }
    match ((Buffer.withCapacity p.chunkSizeBytes).overwrite bytes).setSize source.count with
    | .error x => (.error x, chunk, p)
    | .ok inData =>
      match p.compressor.compress codecs inData chunk with
      | (.ok .COPY, chunk, compressor) => (.ok .COPY, (chunk.swap inData).1, { p with compressor })
      | (.ok usedCompressor, chunk, compressor) => (.ok usedCompressor, chunk, { p with compressor })
      | (.error (.compressionError ..), chunk, compressor) =>
        (.ok .COPY, (chunk.swap inData).1, { p with compressor })
      | (.error x, chunk, compressor) => (.error x, chunk, { p with compressor })

end FileProcessor

end Autocomp

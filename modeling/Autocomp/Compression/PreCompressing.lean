import Autocomp.Compression.FileProcessing

/-!
# The pre-compressing file processor

`PreCompressingFileProcessor` has a script compress a whole file into one next to it, sends that
file and removes it. The scripts pass their arguments on unquoted, so what they do is known for
plain words only; the compression programs they start are parameters.
-/

namespace Autocomp

open FileStream

/-- What the scripts start: the output of a compression program on its standard input, of the
decompression program on its own, and the effect of a script whose arguments the shell splits or
expands. -/
structure Scripts where
  image (compressor : Compressor) (compressionLevel : Int) (bytes : List ByteMemory.Byte) :
    List ByteMemory.Byte
  restore (compressor : Compressor) (bytes : List ByteMemory.Byte) : List ByteMemory.Byte
  shell (compressor : Compressor) (arguments : List ByteString) (disk : Disk Path) : Disk Path

/-- An argument the shell leaves alone and `getopts` takes for no option. -/
def isPlain (word : ByteString) : Bool :=
  word ≠ [] ∧ word.head? ≠ (ascii "-").head? ∧ ∀ c ∈ word, c ∉ ascii " \t\n*?[\\"

namespace Scripts

/-- A script called to compress: the input is redirected before the output. -/
def compress (scripts : Scripts) (compressor : Compressor) (inFile outFile : Path)
    (compressionLevel : Int) (disk : Disk Path) : Disk Path :=
  if isPlain inFile ∧ isPlain outFile then
    match disk inFile with
    | some bytes =>
      Function.update disk outFile (some (scripts.image compressor compressionLevel bytes))
    | none => disk
  else
    scripts.shell compressor [inFile, outFile, ascii (toString compressionLevel)] disk

/-- A script called with `-d` removes its input in the end. -/
def decompress (scripts : Scripts) (compressor : Compressor) (inFile outFile : Path)
    (disk : Disk Path) : Disk Path :=
  if isPlain inFile ∧ isPlain outFile then
    match disk inFile with
    | some bytes =>
      Function.update
        (Function.update disk outFile (some (scripts.restore compressor bytes))) inFile none
    | none => disk
  else scripts.shell compressor [ascii "-d", inFile, outFile] disk

end Scripts

namespace Compressor

/-- `fileExtenssions`, and `COMPRESSED_FILE_EXTENSSIONS` on the client's side. -/
def fileExtenssion : Compressor → ByteString
  | ZLIB => ascii ".gz"
  | SNAPPY => ascii ".snappy"
  | LZO => ascii ".lzop"
  | BZIP2 => ascii ".bz2"
  | LZMA => ascii ".lzma"
  | FPC => ascii ".fpc"
  | COPY => []

def hasScript : Compressor → Bool
  | SNAPPY | COPY => false
  | ZLIB | LZO | BZIP2 | LZMA | FPC => true

end Compressor

structure PreCompressingFileProcessor extends FileProcessingStrategy where
  compressor : Compressor
  compressionLevel : Int
  compressedFileSize : Nat
  currentCompressedFileName : Path

namespace PreCompressingFileProcessor

def new : PreCompressingFileProcessor := ⟨.new 1024, .COPY, -1, 0, []⟩

/-- `setCompressor`. Of the two comparisons with the bounds one always holds, so no level is
refused. -/
def setCompressor (compressor : Compressor) (compressionLevel : Int)
    (p : PreCompressingFileProcessor) : Except Exn PreCompressingFileProcessor :=
  match compressor.levels with
  | none => .ok { p with compressor := compressor }
  | some l =>
    if compressionLevel = -1 then
      .ok { p with compressor := compressor, compressionLevel := l.defaultCompressionLevel }
    else if l.minCompressionLevel ≤ compressionLevel ∨ compressionLevel ≤ l.maxCompressionLevel then
      .ok { p with compressor := compressor, compressionLevel := compressionLevel }
    else .error (.invalidCompressionLevelError compressor.name compressionLevel [])

/-- `compressFile`, the script being executable. -/
def compressFile (scripts : Scripts) (p : PreCompressingFileProcessor)
    (inFilename outFilename : Path) (disk : Disk Path) : Except Exn (Disk Path) :=
  if p.compressor = .COPY then .ok disk
  else if p.compressor.hasScript then
    .ok (scripts.compress p.compressor inFilename outFilename p.compressionLevel disk)
  else .error .outOfRange

/-- `decompressFile`, the script being executable. -/
def decompressFile (scripts : Scripts) (inFilename outFilename : Path) (compressor : Compressor)
    (disk : Disk Path) : Except Exn (Disk Path) :=
  if compressor = .COPY then .ok disk
  else if compressor.hasScript then .ok (scripts.decompress compressor inFilename outFilename disk)
  else .error .outOfRange

/-- `openNextFile`: its outcome, the processor and the disk. -/
def openNextFile (scripts : Scripts) (disk : Disk Path) (p : PreCompressingFileProcessor) :
    Except Exn Nat × PreCompressingFileProcessor × Disk Path :=
  if p.hasNextFile then
    match p.takeNextFile disk with
    | (.error x, s) => (.error x, { p with toFileProcessingStrategy := s }, disk)
    | (.ok (), s) =>
      let compressedName := s.currentFileName ++ p.compressor.fileExtenssion
      let p := { p with
        toFileProcessingStrategy := s, currentCompressedFileName := compressedName }
      match p.compressFile scripts s.currentFileName compressedName disk with
      | .error x => (.error x, p, disk)
      | .ok disk =>
        let s := { s with source := s.source.openFile (disk compressedName) }
        if s.source.fail then
          (.error (.ioError (ascii "Could not open current file: " ++ compressedName)),
            { p with toFileProcessingStrategy := s }, disk)
        else
          let s := s.calculateFileSize
          let p := { p with toFileProcessingStrategy := s, compressedFileSize := s.currentFileSize }
          match disk s.currentFileName with
          | none => (.error (.ioError (ascii "Could not open file: " ++ s.currentFileName)), p, disk)
          | some content =>
            (.ok content.length,
              { p with currentFileSize := content.length, currentFileReadBytes := 0 }, disk)
  else (.ok 0, p, disk)

/-- The `hasNextChunk` of the derived class, which is not virtual. -/
def hasNextChunk (p : PreCompressingFileProcessor) : Bool :=
  !p.source.eof && !p.source.fail && decide (p.currentFileReadBytes < p.compressedFileSize)

/-- `getNextChunk`: its outcome, the chunk's buffer, the processor and the disk. -/
def getNextChunk (disk : Disk Path) (p : PreCompressingFileProcessor) (chunk : Buffer) :
    Except Exn Compressor × Buffer × PreCompressingFileProcessor × Disk Path :=
  if p.source.isOpen = false then (.error p.notOpenError, chunk, p, disk)
  else if p.hasNextChunk = false then (.error p.noMoreDataError, chunk, p, disk)
  else
    let chunk := if chunk.capacity < p.chunkSizeBytes then chunk.resize p.chunkSizeBytes else chunk
    let (bytes, source) := p.source.read p.chunkSizeBytes
    let p := { p with toFileProcessingStrategy := p.afterRead source }
    match (chunk.overwrite bytes).setSize source.count with
    | .error x => (.error x, chunk, p, disk)
    | .ok chunk =>
      if p.hasNextChunk then (.ok p.compressor, chunk, p, disk)
      else
        -- the compressed file has been read to its end
        (.ok p.compressor, chunk, { p with source := p.source.close },
          if p.compressor ≠ .COPY then Function.update disk p.currentCompressedFileName none
          else disk)

end PreCompressingFileProcessor

end Autocomp

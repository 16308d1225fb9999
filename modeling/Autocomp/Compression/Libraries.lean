import Autocomp.Compression.LZMACompressor
import Autocomp.Compression.Strategies

/-!
# The compressors of the libraries

`ZlibCompressor`, `Bzip2Compressor`, `LZOCompressor`, `SnappyCompressor` and `LZMACompressor` hand
their buffers to a library. The functions of the libraries are parameters. They are given what the
classes pass to them, which is not always the buffer: bzip2 counts in 32 bits, and LZO and Snappy are
not told the capacity of the output.
-/

namespace Autocomp

/-- What a function of a library returns: its result code, and what it has written from the start of
the output. The size that it reports is that of what it has written. -/
structure Reply where
  resultCode : Int
  written : ByteString
  deriving DecidableEq

namespace Reply

/-- What the classes do with a reply: a result code other than `ok` and a size beyond the capacity are
thrown with `raise`. -/
def check (ok : Int) (raise : ByteString → Exn) (outData : Buffer) (reply : Reply) :
    Except Exn Unit × Buffer :=
  let outData := outData.overwrite reply.written
  if reply.resultCode ≠ ok then
    (.error (raise (ascii "Obtained error code " ++ ascii (toString reply.resultCode))), outData)
  else
    match outData.setSize reply.written.length with
    | .ok outData => (.ok (), outData)
    | .error x => (.error (raise x.what), outData)

/-- The same for a function that does not look at the capacity. -/
def checkUnbounded (ok : Int) (raise : ByteString → Exn) (outData : Buffer) (reply : Reply) :
    Except Exn Unit × Buffer :=
  if outData.capacity < reply.written.length then (.error .undefinedBehaviour, outData)
  else reply.check ok raise outData

end Reply

namespace Compressor

def compressionError (c : Compressor) (inData outData : Buffer) (message : ByteString) : Exn :=
  .compressionError c.name inData.actualSize outData.capacity message

def decompressionError (c : Compressor) (inData outData : Buffer) (message : ByteString) : Exn :=
  .decompressionError c.name inData.actualSize outData.capacity message

end Compressor

/-- The functions on the capacity of the output and the source. -/
structure Zlib where
  compress2 : Nat → ByteString → Int → Reply
  uncompress : Nat → ByteString → Reply

namespace ZlibCompressor

def Z_OK : Int := 0

def compress (zlib : Zlib) (compressionLevel : Int) (inData outData : Buffer) :
    Except Exn Unit × Buffer :=
  (zlib.compress2 outData.capacity inData.contents compressionLevel).check Z_OK
    (Compressor.ZLIB.compressionError inData outData) outData

def decompress (zlib : Zlib) (inData outData : Buffer) : Except Exn Unit × Buffer :=
  (zlib.uncompress outData.capacity inData.contents).check Z_OK
    (Compressor.ZLIB.decompressionError inData outData) outData

end ZlibCompressor

structure Bzip2 where
  BZ2_bzBuffToBuffCompress : Nat → ByteString → Int → Reply
  BZ2_bzBuffToBuffDecompress : Nat → ByteString → Reply

namespace Bzip2Compressor

def BZ_OK : Int := 0

/-- Sizes and capacities are passed as an `unsigned int`. -/
def compress (bzip2 : Bzip2) (compressionLevel : Int) (inData outData : Buffer) :
    Except Exn Unit × Buffer :=
  (bzip2.BZ2_bzBuffToBuffCompress (outData.capacity % 2 ^ 32)
    (inData.contents.take (inData.actualSize % 2 ^ 32)) compressionLevel).check BZ_OK
    (Compressor.BZIP2.compressionError inData outData) outData

def decompress (bzip2 : Bzip2) (inData outData : Buffer) : Except Exn Unit × Buffer :=
  (bzip2.BZ2_bzBuffToBuffDecompress (outData.capacity % 2 ^ 32)
    (inData.contents.take (inData.actualSize % 2 ^ 32))).check BZ_OK
    (Compressor.BZIP2.decompressionError inData outData) outData

end Bzip2Compressor

/-- Neither function looks at the capacity, and `lzo1x_decompress` does not look at the end of the
source either: what it does with other data than compressed data has no meaning. -/
structure Lzo where
  lzo1x_999_compress_level : ByteString → Int → Reply
  lzo1x_decompress : ByteString → Option Reply

namespace LZOCompressor

def LZO_E_OK : Int := 0

def compress (lzo : Lzo) (compressionLevel : Int) (inData outData : Buffer) :
    Except Exn Unit × Buffer :=
  (lzo.lzo1x_999_compress_level inData.contents compressionLevel).checkUnbounded LZO_E_OK
    (Compressor.LZO.compressionError inData outData) outData

def decompress (lzo : Lzo) (inData outData : Buffer) : Except Exn Unit × Buffer :=
  match lzo.lzo1x_decompress inData.contents with
  | none => (.error .undefinedBehaviour, outData)
  | some reply =>
    reply.checkUnbounded LZO_E_OK (Compressor.LZO.decompressionError inData outData) outData

end LZOCompressor

/-- `RawUncompress` returns whether it has succeeded, and writes in any case. -/
structure Snappy where
  RawCompress : ByteString → ByteString
  GetUncompressedLength : ByteString → Option Nat
  RawUncompress : ByteString → Bool × ByteString

namespace SnappyCompressor

/-- The size is looked at after `RawCompress` has written. -/
def compress (snappy : Snappy) (inData outData : Buffer) : Except Exn Unit × Buffer :=
  let written := snappy.RawCompress inData.contents
  if outData.capacity < written.length then (.error .undefinedBehaviour, outData)
  else
    match (outData.overwrite written).setSize written.length with
    | .ok outData => (.ok (), outData)
    | .error x => (.error (Compressor.SNAPPY.compressionError inData outData x.what), outData)

def decompress (snappy : Snappy) (inData outData : Buffer) : Except Exn Unit × Buffer :=
  let raise := Compressor.SNAPPY.decompressionError inData outData
  match snappy.GetUncompressedLength inData.contents with
  | none => (.error (raise (ascii "Parsing error in snappy::GetUncompressedLength")), outData)
  | some decompressedDataSize =>
    match outData.setSize decompressedDataSize with
    | .error x => (.error (raise x.what), outData)
    | .ok outData =>
      match snappy.RawUncompress inData.contents with
      | (true, written) => (.ok (), outData.overwrite written)
      | (false, written) =>
        (.error (raise (ascii "Decompression error")),
          { outData.overwrite written with actualSize := 0 })

end SnappyCompressor

/-- `lzma_code`, and what initializes a stream: a result, and the internal state it leaves. -/
structure Lzma where
  State : Type
  library : LZMACompressor.Library State
  lzma_easy_encoder : Int → Nat × State
  lzma_stream_decoder : Nat × State

namespace LZMACompressor

def initCompressor (lzma : Lzma) (compressionLevel : Int) : Except Exn lzma.State :=
  let (initResult, stream) := lzma.lzma_easy_encoder compressionLevel
  if initResult = LZMA_OK then .ok stream
  else .error (.compressionError Compressor.LZMA.name 0 0
    (ascii "LZMA compressor initialization failure. Error code is " ++ ascii (toString initResult)))

def initDecompressor (lzma : Lzma) : Except Exn lzma.State :=
  let (initResult, stream) := lzma.lzma_stream_decoder
  if initResult = LZMA_OK then .ok stream
  else .error (.decompressionError Compressor.LZMA.name 0 0
    (ascii "LZMA decompressor initialization failure. Error code is " ++ ascii (toString initResult)))

/-- `setBufferInputSize` and `setBufferOutputCapacity` on an exception. -/
def withSizes (inputSize outputCapacity : Nat) : Exn → Exn
  | .compressionError c _ _ message => .compressionError c inputSize outputCapacity message
  | .decompressionError c _ _ message => .decompressionError c inputSize outputCapacity message
  | x => x

/-- `code`, with the output buffer it leaves. -/
def codeInto (lzma : Lzma) (raise : ByteString → Exn) (inData outData : Buffer) (stream : lzma.State)
    (fuel : Nat) : Option (Except Exn Unit × Buffer) :=
  (Loop.breakLoop (iterate lzma.library inData.contents) fuel (.start stream outData.capacity)).map
    fun left =>
      match (finish raise outData left.1 left.2).result with
      | .ok outData => (.ok (), outData)
      | .error x => (.error x, outData.overwrite left.1.written)

def _compress (lzma : Lzma) (compressionLevel : Int) (inData outData : Buffer) (fuel : Nat) :
    Option (Except Exn Unit × Buffer) :=
  match initCompressor lzma compressionLevel with
  | .error x => some (.error (withSizes inData.actualSize outData.capacity x), outData)
  | .ok stream => codeInto lzma (Compressor.LZMA.compressionError inData outData) inData outData stream
    fuel

def _decompress (lzma : Lzma) (inData outData : Buffer) (fuel : Nat) :
    Option (Except Exn Unit × Buffer) :=
  match initDecompressor lzma with
  | .error x => some (.error (withSizes inData.actualSize outData.capacity x), outData)
  | .ok stream => codeInto lzma (Compressor.LZMA.decompressionError inData outData) inData outData
    stream fuel

/-- More rounds than `code` makes on a library that gives up. -/
def rounds (inData outData : Buffer) : Nat := 2 * (inData.contents.length + outData.capacity) + 2

/-- A loop that goes on after so many rounds does not end. -/
def compress (lzma : Lzma) (compressionLevel : Int) (inData outData : Buffer) :
    Except Exn Unit × Buffer :=
  (_compress lzma compressionLevel inData outData (rounds inData outData)).getD
    (.error .undefinedBehaviour, outData)

def decompress (lzma : Lzma) (inData outData : Buffer) : Except Exn Unit × Buffer :=
  (_decompress lzma inData outData (rounds inData outData)).getD (.error .undefinedBehaviour, outData)

end LZMACompressor

structure Libraries where
  zlib : Zlib
  bzip2 : Bzip2
  lzo : Lzo
  snappy : Snappy
  lzma : Lzma

/-- The object of a class with a compression level. FPC and COPY have none of these classes. -/
def Libraries.library (libraries : Libraries) (c : Compressor) (compressionLevel : Int) :
    CompressionStrategy :=
  match c with
  | .ZLIB => ⟨ZlibCompressor.compress libraries.zlib compressionLevel,
      ZlibCompressor.decompress libraries.zlib⟩
  | .BZIP2 => ⟨Bzip2Compressor.compress libraries.bzip2 compressionLevel,
      Bzip2Compressor.decompress libraries.bzip2⟩
  | .LZO => ⟨LZOCompressor.compress libraries.lzo compressionLevel,
      LZOCompressor.decompress libraries.lzo⟩
  | .SNAPPY => ⟨SnappyCompressor.compress libraries.snappy,
      SnappyCompressor.decompress libraries.snappy⟩
  | .LZMA => ⟨LZMACompressor.compress libraries.lzma compressionLevel,
      LZMACompressor.decompress libraries.lzma⟩
  | .FPC | .COPY => ⟨fun _ outData => (.error .outOfRange, outData),
      fun _ outData => (.error .outOfRange, outData)⟩

end Autocomp

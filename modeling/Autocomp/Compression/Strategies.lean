import Autocomp.Compression.Fpc.Model
import Autocomp.Messaging

/-!
# Compressors and compression strategies

A `CompressionStrategy` is one compressor; an `AutomaticCompressionStrategy` picks one for each
chunk. The classes that only wrap a library (zlib, Snappy, LZO, bzip2, LZMA) are parameters, and
so are the decisions of the adaptive strategy, which depend on load and time.
-/

namespace Autocomp

/-- The two virtual methods, each with its outcome and the output buffer it leaves. -/
structure CompressionStrategy where
  compress (inData outData : Buffer) : Except Exn Unit × Buffer
  decompress (inData outData : Buffer) : Except Exn Unit × Buffer

/-- The compressors: those of the libraries at each level, and the scratch arrays of FPC as the
stack leaves them. -/
structure Codecs where
  library (compressor : Compressor) (compressionLevel : Int) : CompressionStrategy
  inWords : FPCCompressor.InWords
  outBytes : FPCCompressor.OutBytes
  inBytes : FPCCompressor.InBytes
  outWords : FPCCompressor.OutWords

namespace Codecs

/-- The object of a compressor's class with a compression level. -/
def strategy (codecs : Codecs) (compressor : Compressor) (compressionLevel : Int) :
    CompressionStrategy :=
  match compressor with
  | .FPC =>
    { compress := FPCCompressor.compress compressionLevel.toNat codecs.inWords codecs.outBytes
      decompress := FPCCompressor.decompress codecs.inBytes codecs.outWords }
  | c => codecs.library c compressionLevel

end Codecs

/-- The range of levels and the default level of a `LeveledCompressor`. -/
structure Levels where
  minCompressionLevel : Int
  maxCompressionLevel : Int
  defaultCompressionLevel : Int

namespace Compressor

/-- `SNAPPY` and `COPY` have no levels. -/
def levels : Compressor → Option Levels
  | ZLIB => some ⟨0, 9, 6⟩
  | LZO => some ⟨1, 9, 3⟩
  | BZIP2 => some ⟨1, 9, 9⟩
  | LZMA => some ⟨0, 9, 6⟩
  | FPC => some ⟨1, 28, 20⟩
  | SNAPPY | COPY => none

def HasLevel (c : Compressor) (level : Int) : Prop :=
  ∀ l, c.levels = some l → l.minCompressionLevel ≤ level ∧ level ≤ l.maxCompressionLevel

end Compressor

/-- What `AutoCompCompressor` decides on a chunk: to send it as it is, or to look up a compressor
and its level in its table. -/
inductive Decision where
  | sendUncompressed
  | lookup (compressor : Compressor) (compressionLevel : Int)

inductive AutomaticCompressionStrategy where
  /-- `Copy`. -/
  | copy
  /-- `SingleCompressor`. -/
  | single (currentCompressor : Compressor) (currentCompressionLevel : Int)
  /-- `AutoCompCompressor` with the decisions it is going to make. -/
  | autoComp (decisions : Nat → Decision)

namespace AutomaticCompressionStrategy

/-- `SingleCompressor::setCompressor`. -/
def setCompressor (compressor : Compressor) (compressionLevel : Int) :
    Except Exn AutomaticCompressionStrategy :=
  match compressor.levels with
  | none => .ok (.single compressor (-1))
  | some l =>
    if compressionLevel = -1 then .ok (.single compressor l.defaultCompressionLevel)
    else if compressionLevel < l.minCompressionLevel ∨ l.maxCompressionLevel < compressionLevel then
      .error (.invalidCompressionLevelError compressor.name compressionLevel [])
    else .ok (.single compressor compressionLevel)

/-- The keys of `AutoCompCompressor::compressors`. -/
def hasCompressor (compressor : Compressor) (compressionLevel : Int) : Bool :=
  match compressor with
  | .SNAPPY => compressionLevel = -1
  | .ZLIB => 0 ≤ compressionLevel ∧ compressionLevel ≤ 9
  | .LZO | .BZIP2 | .LZMA => 1 ≤ compressionLevel ∧ compressionLevel ≤ 9
  | .FPC | .COPY => false

/-- The compressor to apply to the next chunk, and the strategy for the chunks after it. -/
def next : AutomaticCompressionStrategy → (Compressor × Int) × AutomaticCompressionStrategy
  | copy => ((.COPY, -1), copy)
  | single c level => ((c, level), single c level)
  | autoComp decisions =>
    (match decisions 0 with
      | .sendUncompressed => (.COPY, -1)
      | .lookup c level => if hasCompressor c level then (c, level) else (.COPY, -1),
      autoComp fun n => decisions (n + 1))

/-- `compress`: the compressor used, or the exception of the compressor that was tried. -/
def compress (codecs : Codecs) (inData outData : Buffer) (s : AutomaticCompressionStrategy) :
    Except Exn Compressor × Buffer × AutomaticCompressionStrategy :=
  let ((c, level), s) := s.next
  if c = .COPY then (.ok .COPY, outData, s)
  else
    match (codecs.strategy c level).compress inData outData with
    | (.ok (), outData) => (.ok c, outData, s)
    | (.error e, outData) => (.error e, outData, s)

variable (room : Compressor → Int → ByteString → Prop)

/-- The compressor to apply to the next piece has room for what it makes of it. -/
def Takes (s : AutomaticCompressionStrategy) (piece : ByteString) : Prop :=
  s.next.1.1 ≠ .FPC → s.next.1.1 ≠ .COPY → room s.next.1.1 s.next.1.2 piece

/-- The same of each of the next pieces. -/
def TakesAll : AutomaticCompressionStrategy → List ByteString → Prop
  | _, [] => True
  | s, piece :: pieces => s.Takes room piece ∧ s.next.2.TakesAll pieces

/-- The strategy for the chunks after the next `n`. -/
def after : AutomaticCompressionStrategy → Nat → AutomaticCompressionStrategy
  | s, 0 => s
  | s, n + 1 => s.next.2.after n

variable {room}

theorem takesAll_append {s : AutomaticCompressionStrategy} {xs ys : List ByteString} :
    s.TakesAll room (xs ++ ys) ↔ s.TakesAll room xs ∧ (s.after xs.length).TakesAll room ys := by
  induction xs generalizing s with
  | nil =>
    rw [List.nil_append, TakesAll, true_and]
    rfl
  | cons x xs ih =>
    rw [List.cons_append, TakesAll, ih, ← and_assoc]
    rfl

end AutomaticCompressionStrategy

/-- What a compressor is given for a piece: at most `n` bytes, and an output of 1.1 times
that size. -/
structure Passed (n : Nat) (inData outData : Buffer) : Prop where
  wellFormed : inData.WellFormed
  size_le : inData.contents.length ≤ n
  capacity : outData.capacity = 11 * n / 10

/-- A library-backed compressor on pieces of at most `n` bytes. Where there is room it gives
something or raises `CompressionError`, and writes beyond the output where there is not; what was
compressed at any level comes back at any level if it fits. -/
structure LibraryBacked (n : Nat) (room : Int → ByteString → Prop)
    (codec : Int → CompressionStrategy) : Prop where
  compress_cases : ∀ level inData outData, Passed n inData outData → room level inData.contents →
    (∃ compressed, (codec level).compress inData outData = (.ok (), compressed) ∧
      (inData.contents ≠ [] → compressed.contents ≠ [])) ∨
    ∃ name inputSize outputCapacity message left, (codec level).compress inData outData =
      (.error (.compressionError name inputSize outputCapacity message), left)
  compress_beyond : ∀ level inData outData, Passed n inData outData → ¬ room level inData.contents →
    ∃ left, (codec level).compress inData outData = (.error .undefinedBehaviour, left)
  decompress_compress : ∀ level level' inData outData compressed restored, Passed n inData outData →
    (codec level).compress inData outData = (.ok (), compressed) →
    inData.contents.length ≤ restored.capacity → restored.capacity < 2 ^ 32 →
    ∃ result, (codec level').decompress (.ofBytes compressed.contents) restored = (.ok (), result) ∧
      result.contents = inData.contents ∧ result.capacity = restored.capacity

def Codecs.Assumed (codecs : Codecs) (n : Nat) (room : Compressor → Int → ByteString → Prop) : Prop :=
  ∀ c, c ≠ .FPC → c ≠ .COPY → LibraryBacked n (room c) (codecs.library c)

/-- What a library makes of a piece fits into the output buffer. -/
def Codecs.Fits (codecs : Codecs) (n : Nat) : Prop :=
  ∀ c level inData outData compressed, c ≠ .FPC → c ≠ .COPY → Passed n inData outData →
    (codecs.library c level).compress inData outData = (.ok (), compressed) →
    compressed.contents.length ≤ outData.capacity

/-- What a chunk is decompressed to does not depend on what the output buffer held. -/
structure DecompressesAfresh (strategy : CompressionStrategy) : Prop where
  outcome : ∀ chunk a b, a.capacity = b.capacity → a.capacity < 2 ^ 32 →
    (strategy.decompress chunk a).1 = (strategy.decompress chunk b).1
  contents : ∀ chunk a b, a.capacity = b.capacity → a.capacity < 2 ^ 32 →
    (strategy.decompress chunk a).1 = .ok () →
    (strategy.decompress chunk a).2.contents = (strategy.decompress chunk b).2.contents
  capacity : ∀ chunk a, a.capacity < 2 ^ 32 → (strategy.decompress chunk a).1 = .ok () →
    (strategy.decompress chunk a).2.capacity = a.capacity

def Codecs.Afresh (codecs : Codecs) : Prop :=
  ∀ c level, c ≠ .FPC → c ≠ .COPY → DecompressesAfresh (codecs.library c level)

end Autocomp

import Autocomp.Lib.ByteMemory

/-!
# Strings and exceptions

A `std::string` is its list of bytes. One type holds every exception the modelled functions
raise, with the data each class keeps; `undefinedBehaviour` marks a step to which the language
gives no meaning.
-/

namespace Autocomp

open ByteMemory

abbrev ByteString := List Byte

def ascii (s : String) : ByteString := s.toList.map fun c => BitVec.ofNat 8 c.toNat

inductive Exn where
  | compressionError (compressor : ByteString) (inputSize outputCapacity : Nat)
      (message : ByteString)
  | decompressionError (compressor : ByteString) (inputSize outputCapacity : Nat)
      (message : ByteString)
  | invalidCompressionLevelError (compressor : ByteString) (compressionLevel : Int)
      (message : ByteString)
  | invalidCompressorError (compressor : Nat) (message : ByteString)
  | ioError (message : ByteString)
  | networkError (message : ByteString)
  | invalidRequestParameterError (message : ByteString)
  | domainError (message : ByteString)
  | invalidArgument (message : ByteString)
  | lengthError
  | outOfRange
  | badAlloc
  | undefinedBehaviour
  deriving DecidableEq

namespace Exn

/-- The text `what()` returns. -/
def what : Exn → ByteString
  | compressionError compressor inputSize outputCapacity message =>
      ascii "Compression error (compressor: " ++ compressor ++ ascii ", input buffer size: " ++
        ascii (toString inputSize) ++ ascii ", output buffer capacity: " ++
        ascii (toString outputCapacity) ++ ascii "): " ++ message
  | decompressionError compressor inputSize outputCapacity message =>
      ascii "Decompression error (compressor: " ++ compressor ++ ascii ", input buffer size: " ++
        ascii (toString inputSize) ++ ascii ", output buffer capacity: " ++
        ascii (toString outputCapacity) ++ ascii "): " ++ message
  | invalidCompressionLevelError compressor compressionLevel message =>
      ascii "Invalid compression level (compressor: " ++ compressor ++
        ascii ", compression level: " ++ ascii (toString compressionLevel) ++ ascii ") " ++ message
  | invalidCompressorError compressor message =>
      ascii "Invalid compressor (compressor value: " ++ ascii (toString compressor) ++
        ascii "). " ++ message
  | ioError message => message
  | networkError message => message
  | invalidRequestParameterError message => message
  | domainError message => message
  | invalidArgument message => message
  | lengthError => ascii "cannot create std::vector larger than max_size()"
  | outOfRange => ascii "map::at"
  | badAlloc => ascii "std::bad_alloc"
  | undefinedBehaviour => []

end Exn

end Autocomp

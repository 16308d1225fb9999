import Autocomp.Compression.PreCompressing
import Autocomp.Lib.Loop
import Autocomp.Lib.MachineInt
import Autocomp.Utils.SynchronousQueue

/-!
# Serving a request

`Server::processRequest` from the bytes of the request to the messages it leaves for the
transmission. Every message carries what the server means by it, which is not sent. Memory
allocation succeeds.
-/

namespace Autocomp

open FileStream Loop MachineInt

inductive Processor where
  | file (p : FileProcessor)
  | preCompressing (p : PreCompressingFileProcessor)

/-- The machine a server runs on: the libraries and scripts, what paths name, and the decisions of
the adaptive and the training strategy for a request. -/
structure Host where
  codecs : Codecs
  scripts : Scripts
  protobuf : Protobuf
  root : Path → Except Nat Node
  decisions : Nat → Decision
  training : FileTransmissionRequest → Except Exn AutomaticCompressionStrategy

namespace Processor

def base : Processor → FileProcessingStrategy
  | file p => p.toFileProcessingStrategy
  | preCompressing p => p.toFileProcessingStrategy

def hasNextFile (p : Processor) : Bool := p.base.hasNextFile

/-- `FileProcessingStrategy::hasNextChunk` for either class: the method is not virtual. -/
def hasNextChunk (p : Processor) : Bool := p.base.hasNextChunk

def preparePath (host : Host) (disk : Disk Path) (path : Path) :
    Processor → Except Exn Processor
  | file p => (p.toFileProcessingStrategy.preparePath disk path (host.root path)).map fun s =>
      file { p with toFileProcessingStrategy := s }
  | preCompressing p =>
      (p.toFileProcessingStrategy.preparePath disk path (host.root path)).map fun s =>
        preCompressing { p with toFileProcessingStrategy := s }

def openNextFile (host : Host) (disk : Disk Path) :
    Processor → Except Exn Nat × Processor × Disk Path
  | file p =>
    let (result, p) := p.openNextFile disk
    (result, file p, disk)
  | preCompressing p =>
    let (result, p, disk) := p.openNextFile host.scripts disk
    (result, preCompressing p, disk)

def getNextChunk (host : Host) (disk : Disk Path) (chunk : Buffer) :
    Processor → Except Exn Compressor × Buffer × Processor × Disk Path
  | file p =>
    let (result, chunk, p) := p.getNextChunk host.codecs chunk
    (result, chunk, file p, disk)
  | preCompressing p =>
    let (result, chunk, p, disk) := p.getNextChunk disk chunk
    (result, chunk, preCompressing p, disk)

end Processor

namespace Server

/-- What the server means by a message. -/
inductive Meaning where
  | initial (message : FileInitialMessage)
  | header (message : ChunkHeader)
  | chunk (bytes : ByteString)
  | error (message : ErrorMessage)
  deriving DecidableEq

structure Sent where
  meaning : Meaning
  buffer : Buffer

abbrev TransmissionQueue := SynchronousQueue Sent

def serializeMessage {M : Type} [Message M] (format : MessageFormat M) (message : M)
    (buffer : Buffer) : Buffer :=
  let bytes := format.serialize message
  let buffer := if buffer.capacity < bytes.length then buffer.resize bytes.length else buffer
  if bytes.length ≤ buffer.capacity then { buffer.overwrite bytes with actualSize := bytes.length }
  else buffer

def sendErrorMessage (protobuf : Protobuf) (message : ByteString) (queue : TransmissionQueue) :
    TransmissionQueue :=
  queue.push ⟨.error ⟨some message⟩,
    serializeMessage protobuf.errorMessage ⟨some message⟩ .empty⟩

/-- The variables of the loops. A buffer moved into the queue is empty. -/
structure Serving where
  processor : Processor
  disk : Disk Path
  chunk : Buffer
  fileInitialMessageBuffer : Buffer
  chunkHeaderBuffer : Buffer
  transmissionQueue : TransmissionQueue

/-- How the variables stand whenever a loop tests its condition. -/
structure Serving.Ready (s : Serving) : Prop where
  initial : s.fileInitialMessageBuffer = .empty
  header : s.chunkHeaderBuffer = .empty
  chunk : s.chunk.actualSize ≤ s.chunk.capacity
  capacity : s.chunk.capacity ≤ 11 * s.processor.base.chunkSizeBytes / 10

/-- The loop over the chunks of a file counts them and can be left early. -/
structure ServingFile extends Serving where
  nChunks : Nat
  broken : Bool

/-- The body of `while (fileProcessor->hasNextChunk())`. -/
def serveChunk (host : Host) (s : ServingFile) : Except Exn ServingFile :=
  match s.processor.getNextChunk host s.disk s.chunk with
  | (.error (.ioError _), chunk, processor, disk) =>
    .ok { s with processor := processor, disk := disk, chunk := chunk, broken := true }
  | (.error x, _, _, _) => .error x
  | (.ok usedCompressor, chunk, processor, disk) =>
    let chunkHeader : ChunkHeader :=
      ⟨some usedCompressor, some (BitVec.ofNat 64 s.nChunks),
        if processor.hasNextChunk then none else some true⟩
    let chunkHeaderBuffer :=
      serializeMessage host.protobuf.chunkHeader chunkHeader s.chunkHeaderBuffer
    let queue := s.transmissionQueue.push ⟨.header chunkHeader, chunkHeaderBuffer⟩
    .ok { s with
      processor := processor
      disk := disk
      chunk := .empty
      chunkHeaderBuffer := .empty
      transmissionQueue := queue.push ⟨.chunk chunk.contents, chunk⟩
      nChunks := s.nChunks + 1 }

def serveChunks (host : Host) : Nat → ServingFile → Option (Except Exn ServingFile) :=
  whileLoop (fun s => !s.broken && s.processor.hasNextChunk) fun _ s => some (serveChunk host s)

/-- The body of `while (fileProcessor->hasNextFile())`. -/
def serveFile (host : Host) (fuel : Nat) (s : Serving) : Option (Except Exn Serving) :=
  match s.processor.openNextFile host s.disk with
  | (.error x, processor, disk) =>
    match x with
    | .ioError _ | .compressionError .. =>
      some (.ok { s with
        processor := processor
        disk := disk
        transmissionQueue := sendErrorMessage host.protobuf x.what s.transmissionQueue })
    | x => some (.error x)
  | (.ok fileSize, processor, disk) =>
    let fileInitialMessage : FileInitialMessage :=
      ⟨some processor.base.currentFileName, some (BitVec.ofNat 64 fileSize),
        some (BitVec.ofNat 32 processor.base.chunkSize),
        if processor.hasNextFile then none else some true⟩
    let fileInitialMessageBuffer := serializeMessage host.protobuf.fileInitialMessage
      fileInitialMessage s.fileInitialMessageBuffer
    let s := { s with
      processor := processor
      disk := disk
      fileInitialMessageBuffer := .empty
      transmissionQueue :=
        s.transmissionQueue.push ⟨.initial fileInitialMessage, fileInitialMessageBuffer⟩ }
    (serveChunks host fuel ⟨s, 0, false⟩).map fun result => result.map ServingFile.toServing

def serveFiles (host : Host) : Nat → Serving → Option (Except Exn Serving) :=
  whileLoop (fun s => s.processor.hasNextFile) (serveFile host)

def requestedLevel (fileRequest : FileTransmissionRequest) : Int :=
  match fileRequest.compressionLevel with
  | some level => toInt32 level.toNat
  | none => -1

/-- `configureFileProcessor` on a parsed request, which has all its required fields. -/
def configureFileProcessor (host : Host) (fileRequest : FileTransmissionRequest) :
    Except Exn Processor :=
  let compressor := fileRequest.compressor.getD .ZLIB
  match fileRequest.mode.getD .NO_COMPRESSION with
  | .NO_COMPRESSION => .ok (.file (.new 64 .copy))
  | .AUTOCOMP => .ok (.file (.new 64 (.autoComp host.decisions)))
  | .COMPRESS =>
    (AutomaticCompressionStrategy.setCompressor compressor (requestedLevel fileRequest)).map
      fun singleCompressor => .file (.new 512 singleCompressor)
  | .PRE_COMPRESS =>
    (PreCompressingFileProcessor.new.setCompressor compressor (requestedLevel fileRequest)).map
      .preCompressing
  | .TRAIN => (host.training fileRequest).map fun trainCompressor => .file (.new 64 trainCompressor)

/-- What a request leaves: the disk, the messages, and whether the transmission that sends them
was started. -/
structure Served where
  disk : Disk Path
  transmissionQueue : TransmissionQueue
  transmitting : Bool

/-- The exceptions of `configureFileProcessor` that `processRequest` catches. -/
def catchesConfigurationError : Exn → Bool
  | .invalidCompressorError .. | .invalidCompressionLevelError .. => true
  | .compressionError .. | .decompressionError .. | .ioError _ | .networkError _
  | .invalidRequestParameterError _ => true
  | .domainError _ | .invalidArgument _ | .lengthError | .outOfRange | .badAlloc
  | .undefinedBehaviour => false

/-- `processRequest` on the bytes received. Error messages from before the transmission is started
stay in the queue. -/
def processRequest (host : Host) (disk : Disk Path) (buffer : ByteString) (fuel : Nat) :
    Option (Except Exn Served) :=
  let reject (message : ByteString) : Option (Except Exn Served) :=
    some (.ok ⟨disk, sendErrorMessage host.protobuf message .empty, false⟩)
  match host.protobuf.fileTransmissionRequest.deserialize buffer with
  | none => reject (ascii "Invalid request message")
  | some fileRequest =>
    match configureFileProcessor host fileRequest with
    | .error x => if catchesConfigurationError x then reject x.what else some (.error x)
    | .ok fileProcessor =>
      match fileProcessor.preparePath host disk (fileRequest.filename.getD []) with
      | .error (.ioError message) => reject message
      | .error x => some (.error x)
      | .ok fileProcessor =>
        (serveFiles host fuel ⟨fileProcessor, disk,
            .withCapacity (11 * fileProcessor.base.chunkSize * 1024 / 10), .empty, .empty,
            .empty⟩).map fun
          | .error x => .error x
          | .ok s =>
            .ok ⟨s.disk,
              if fileRequest.mode = some .TRAIN then
                sendErrorMessage host.protobuf (ascii "Done traning")
                  (sendErrorMessage host.protobuf (ascii "Done traning") s.transmissionQueue.clear)
              else s.transmissionQueue, true⟩

end Server

end Autocomp

import Autocomp.Compression.AutoCompCompressor
import Autocomp.Network.Transmission
import Autocomp.Utils.DecisionTree.Walk

/-!
# The calls of a request

`processRequest` from the moment it has submitted `transmit`, one call of its loops at a time. Every
call finds the machine as it is then and throws whatever it can throw: `stat` may fail on any entry, a
script may fail, the send buffer may be unreadable, and the decision tree may be one for points of
another dimension. Memory allocation succeeds.
-/

namespace Autocomp.Server.Unwinding

open AutoCompCompressor DirectoryExplorer FileStream Transition

/-- The error of `stat` on an entry, the files (as a script leaves them), the failure of a script, and
what the adaptive compressor reads, with the fuel for its walk through the tree. -/
structure World where
  statError : Path → Node → Option Nat
  disk : Disk Path
  scriptFailure : Option ByteString
  statics : Statics
  sendBufferIdle : Except ByteString Bool
  cpuLoadLevel : Int
  bandwidthLevel : Int
  fuel : Nat

namespace World

def point (w : World) (currentBytecounting : Nat) : List Int :=
  [w.cpuLoadLevel, w.bandwidthLevel, (currentBytecounting / 10 : Nat)]

/-- `AutoCompCompressor::compress` up to its decision, unless the walk through the tree goes on. -/
def decision (w : World) (tree : DecisionTree) (inData : ByteString) :
    Option (Except Exn Decision) :=
  match counted w.statics inData with
  | none => some (.ok .sendUncompressed)
  | some currentBytecounting =>
    match w.sendBufferIdle with
    | .error message => some (.error (.networkError message))
    | .ok true => some (.ok (.lookup .ZLIB 3))
    | .ok false =>
      (tree.classify (w.point currentBytecounting) w.fuel).map fun answer =>
        answer.map fun (compressor, compressionLevel) =>
          if compressor = .COPY then .sendUncompressed else .lookup compressor compressionLevel

/-- Where the send buffer can be read and the walk ends, this is `compress`. -/
theorem decision_eq {w : World} {tree : DecisionTree} {classify : Classifier} {idle : Bool}
    (hidle : w.sendBufferIdle = .ok idle)
    (htree : ∀ point, tree.classify point w.fuel = some (classify point)) (inData : ByteString) :
    w.decision tree inData = some (compress classify w.statics
      ⟨inData, idle, w.cpuLoadLevel, w.bandwidthLevel⟩).1 := by
  rw [compress_counted, decision]
  cases counted w.statics inData with
  | none => rfl
  | some n =>
    simp only [hidle]
    cases idle with
    | true => rfl
    | false =>
      rw [htree, Option.map_some]
      rfl

end World

/-- `Copy` and `SingleCompressor`; `TrainingCompressor`, with the single compressor that it extends;
and `AutoCompCompressor`. -/
inductive Strategy where
  | fixed (s : AutomaticCompressionStrategy)
  | training (s : AutomaticCompressionStrategy)
  | adaptive

/-- What the strategy is for one chunk, or what it throws before it compresses anything. That is
never a `CompressionError`. -/
def Strategy.forChunk (w : World) (tree : DecisionTree) (inData : ByteString) :
    Strategy → Option (Except Exn AutomaticCompressionStrategy)
  | fixed s => some (.ok s)
  | training s => some (.ok (if 100 < getBytecounting inData then .copy else s))
  | adaptive => (w.decision tree inData).map fun r => r.map fun d => .autoComp fun _ => d

inductive Processor where
  | file (s : FileProcessingStrategy) (strategy : Strategy)
  | preCompressing (p : PreCompressingFileProcessor)

namespace Processor

def base : Processor → FileProcessingStrategy
  | file s _ => s
  | preCompressing p => p.toFileProcessingStrategy

def withBase (s : FileProcessingStrategy) : Processor → Processor
  | file _ strategy => file s strategy
  | preCompressing p => preCompressing { p with toFileProcessingStrategy := s }

def hasNextFile (p : Processor) : Bool := p.base.hasNextFile

def hasNextChunk (p : Processor) : Bool := p.base.hasNextChunk

end Processor

/-- `configureFileProcessor` on a parsed request. -/
def configureFileProcessor (fileRequest : FileTransmissionRequest) : Except Exn Processor :=
  let compressor := fileRequest.compressor.getD .ZLIB
  let singleCompressor :=
    AutomaticCompressionStrategy.setCompressor compressor (requestedLevel fileRequest)
  match fileRequest.mode.getD .NO_COMPRESSION with
  | .NO_COMPRESSION => .ok (.file (.new 64) (.fixed .copy))
  | .AUTOCOMP => .ok (.file (.new 64) .adaptive)
  | .COMPRESS => singleCompressor.map fun s => .file (.new 512) (.fixed s)
  | .PRE_COMPRESS =>
    (PreCompressingFileProcessor.new.setCompressor compressor (requestedLevel fileRequest)).map
      .preCompressing
  | .TRAIN => singleCompressor.map fun s => .file (.new 64) (.training s)

/-- The same processor where the strategy makes the decisions of a host. -/
def Processor.onHost (host : Host) : Processor → Autocomp.Processor
  | file s (.fixed strategy) | file s (.training strategy) => .file ⟨s, strategy⟩
  | file s .adaptive => .file ⟨s, .autoComp host.decisions⟩
  | preCompressing p => .preCompressing p

theorem configureFileProcessor_onHost (host : Host) {fileRequest : FileTransmissionRequest}
    (hmode : fileRequest.mode ≠ some .TRAIN) : Server.configureFileProcessor host fileRequest =
      (configureFileProcessor fileRequest).map (Processor.onHost host) := by
  unfold Server.configureFileProcessor configureFileProcessor
  cases hm : fileRequest.mode with
  | none => rfl
  | some mode =>
    cases mode with
    | TRAIN => exact absurd hm hmode
    | NO_COMPRESSION | AUTOCOMP => rfl
    | COMPRESS =>
      simp only [Option.getD_some]
      cases AutomaticCompressionStrategy.setCompressor _ _ <;> rfl
    | PRE_COMPRESS =>
      simp only [Option.getD_some]
      cases PreCompressingFileProcessor.setCompressor _ _ _ <;> rfl

/-- A round of the loop of `findNextFile`. -/
inductive Round where
  | again (e : DirectoryExplorer)
  | done (e : DirectoryExplorer)
  | failed (x : Exn) (e : DirectoryExplorer)

def findRound (w : World) (e : DirectoryExplorer) : Round :=
  match e.directory with
  | .cons name node rest =>
    let path := entryPath e.currentDirectory name
    match w.statError path node with
    | some errno =>
      .failed (failure (ascii "Could not stat path ") path errno) { e with directory := rest }
    | none =>
      if node.isDirectory then
        .again { e with
          directory := rest
          directoriesQueue :=
            if isDots name then e.directoriesQueue else e.directoriesQueue ++ [(path, node)] }
      else .done { e with directory := rest, nextFile := path }
  | .nil =>
    match nextDirectory e.currentDirectory e.directoriesQueue with
    | (path, none) =>
      .done { e with
        currentDirectory := path, directoriesQueue := [], nextFile := [], filesAvailable := false }
    | (path, some (entries, queue)) =>
      .again { e with
        currentDirectory := path, directory := entries, directoriesQueue := queue }

def gone (disk : Disk Path) (path : Path) (node : Node) : Option Nat :=
  if node.isDirectory then none else if (disk path).isSome then none else some ENOENT

theorem isDirectory_gone (disk : Disk Path) (path : Path) (node : Node) :
    isDirectory disk path node =
      match gone disk path node with
      | some errno => .error (failure (ascii "Could not stat path ") path errno)
      | none => .ok node.isDirectory := by
  unfold isDirectory gone
  cases node.isDirectory <;> cases (disk path).isSome <;> rfl

/-- Where nothing else fails, `findNextFile` goes on in these rounds. -/
theorem findNextFile_eq {w : World} (hgone : w.statError = gone w.disk) (e : DirectoryExplorer) :
    findNextFile w.disk e =
      match findRound w e with
      | .again e => findNextFile w.disk e
      | .done e => (.ok (), e)
      | .failed x e => (.error x, e) := by
  rw [findNextFile]
  split
  · rename_i name node rest hdirectory
    simp only [isDirectory_gone, findRound, hgone, hdirectory]
    cases gone w.disk (entryPath e.currentDirectory name) node with
    | some errno => rfl
    | none => cases node.isDirectory <;> rfl
  · rename_i hdirectory
    simp only [findRound, hdirectory]
    split
    · rename_i path hnext
      simp only [hnext]
    · rename_i path entries queue hnext
      simp only [hnext]

def compressFile (w : World) (p : PreCompressingFileProcessor) : Except Exn Unit :=
  if p.compressor = .COPY then .ok ()
  else if p.compressor.hasScript then
    match w.scriptFailure with
    | some message => .error (.compressionError p.compressor.name 0 0 message)
    | none => .ok ()
  else .error .outOfRange

/-- The rest of `openNextFile`, once the name of the file is known. -/
def Processor.openFile (w : World) : Processor → Except Exn Nat × Processor
  | file s strategy =>
    let s := { s with source := s.source.openFile (w.disk s.currentFileName) }
    if s.source.fail then
      (.error (.ioError (ascii "Could not open current file: " ++ s.currentFileName)),
        file s strategy)
    else
      let s := { s.calculateFileSize with currentFileReadBytes := 0 }
      (.ok s.currentFileSize, file s strategy)
  | preCompressing p =>
    let compressedName := p.currentFileName ++ p.compressor.fileExtenssion
    let p := { p with currentCompressedFileName := compressedName }
    match compressFile w p with
    | .error x => (.error x, preCompressing p)
    | .ok () =>
      let s := { p.toFileProcessingStrategy with
        source := p.source.openFile (w.disk compressedName) }
      if s.source.fail then
        (.error (.ioError (ascii "Could not open current file: " ++ compressedName)),
          preCompressing { p with toFileProcessingStrategy := s })
      else
        let s := s.calculateFileSize
        let p := { p with toFileProcessingStrategy := s, compressedFileSize := s.currentFileSize }
        match w.disk s.currentFileName with
        | none =>
          (.error (.ioError (ascii "Could not open file: " ++ s.currentFileName)),
            preCompressing p)
        | some content =>
          (.ok content.length, preCompressing { p with
            currentFileSize := content.length, currentFileReadBytes := 0 })

/-- `getNextChunk`, unless the strategy never comes back. -/
def Processor.getNextChunk (codecs : Codecs) (tree : DecisionTree) (w : World) (chunk : Buffer) :
    Processor → Option (Except Exn Compressor × Buffer × Processor)
  | file s strategy =>
    if s.source.isOpen && s.hasNextChunk then
      (strategy.forChunk w tree (s.source.read s.chunkSizeBytes).1).map fun
        | .error x => (.error x, chunk, file s strategy)
        | .ok now =>
          let (result, chunk, p) := FileProcessor.getNextChunk codecs ⟨s, now⟩ chunk
          (result, chunk, file p.toFileProcessingStrategy strategy)
    else
      let (result, chunk, p) := FileProcessor.getNextChunk codecs ⟨s, .copy⟩ chunk
      some (result, chunk, file p.toFileProcessingStrategy strategy)
  | preCompressing p =>
    let (result, chunk, p, _) := p.getNextChunk w.disk chunk
    some (result, chunk, preCompressing p)

/-- Where the strategy comes to something, this is `FileProcessor::getNextChunk` with it. -/
theorem getNextChunk_file {codecs : Codecs} {tree : DecisionTree} {w : World}
    {s : FileProcessingStrategy} {strategy : Strategy} {now : AutomaticCompressionStrategy}
    (hnow : strategy.forChunk w tree (s.source.read s.chunkSizeBytes).1 = some (.ok now))
    (chunk : Buffer) : (Processor.file s strategy).getNextChunk codecs tree w chunk =
      some ((FileProcessor.getNextChunk codecs ⟨s, now⟩ chunk).1,
        (FileProcessor.getNextChunk codecs ⟨s, now⟩ chunk).2.1,
        .file (FileProcessor.getNextChunk codecs ⟨s, now⟩ chunk).2.2.toFileProcessingStrategy
          strategy) := by
  rw [Processor.getNextChunk]
  split
  · rw [hnow]
    rfl
  · rename_i hreading
    unfold FileProcessor.getNextChunk
    by_cases hclosed : s.source.isOpen = false
    · simp only [if_pos hclosed]
    · have hdone : s.hasNextChunk = false := by
        rw [Bool.not_eq_false] at hclosed
        rw [hclosed, Bool.true_and, Bool.not_eq_true] at hreading
        exact hreading
      simp only [if_neg hclosed, if_pos hdone]

theorem openNextFile_file {w : World} {p : FileProcessor} (hnext : p.hasNextFile = true)
    {s : FileProcessingStrategy} (htaken : p.takeNextFile w.disk = (.ok (), s))
    (strategy : Strategy) :
    (Processor.file s strategy).openFile w = ((p.openNextFile w.disk).1,
      .file (p.openNextFile w.disk).2.toFileProcessingStrategy strategy) := by
  simp only [Processor.openFile, FileProcessor.openNextFile, hnext, if_true, htaken]
  split <;> rfl

theorem openNextFile_preCompressing {w : World} {p : PreCompressingFileProcessor}
    (hnext : p.hasNextFile = true) (scripts : Scripts) {disk : Disk Path}
    {s : FileProcessingStrategy} (htaken : p.takeNextFile disk = (.ok (), s))
    (hscript : w.scriptFailure = none)
    (hdisk : p.compressFile scripts s.currentFileName
      (s.currentFileName ++ p.compressor.fileExtenssion) disk = .ok w.disk) :
    (Processor.preCompressing { p with toFileProcessingStrategy := s }).openFile w =
      ((p.openNextFile scripts disk).1, .preCompressing (p.openNextFile scripts disk).2.1) := by
  have hcompress : compressFile w p = .ok () := by
    rw [PreCompressingFileProcessor.compressFile] at hdisk
    rw [compressFile, hscript]
    split
    · rfl
    · rename_i hcopy
      rw [if_neg hcopy] at hdisk
      split
      · rfl
      · rename_i hnone
        rw [if_neg hnone] at hdisk
        contradiction
  have hopened : compressFile w { p with
      toFileProcessingStrategy := s
      currentCompressedFileName := s.currentFileName ++ p.compressor.fileExtenssion } = .ok () :=
    hcompress
  have hscripted : PreCompressingFileProcessor.compressFile scripts { p with
      toFileProcessingStrategy := s
      currentCompressedFileName := s.currentFileName ++ p.compressor.fileExtenssion }
      s.currentFileName (s.currentFileName ++ p.compressor.fileExtenssion) disk = .ok w.disk :=
    hdisk
  simp only [Processor.openFile, PreCompressingFileProcessor.openNextFile, hnext, if_true, htaken,
    hopened, hscripted]
  split
  · rfl
  · have hname : ∀ t : FileProcessingStrategy,
        t.calculateFileSize.currentFileName = t.currentFileName := fun _ => rfl
    simp only [hname]
    cases w.disk s.currentFileName <;> rfl

/-- Where `processRequest` is, from the loop over the files on: at its condition, in the loop of
`findNextFile`, with the name of a file, at the condition of the loop over its chunks, behind the
loops, or gone with an exception. -/
inductive Control where
  | files (p : Processor) (chunk : Buffer)
  | finding (p : Processor) (e : DirectoryExplorer) (chunk : Buffer) (currentFile : Path)
  | opening (p : Processor) (chunk : Buffer)
  | chunks (p : Processor) (chunk : Buffer) (nChunks : Nat)
  | ended
  | escaped (x : Exn)

def errorSent (protobuf : Protobuf) (message : ByteString) : Sent :=
  ⟨.error ⟨some message⟩, serializeMessage protobuf.errorMessage ⟨some message⟩ .empty⟩

def initialSent (protobuf : Protobuf) (p : Processor) (fileSize : Nat) : Sent :=
  let fileInitialMessage : FileInitialMessage :=
    ⟨some p.base.currentFileName, some (BitVec.ofNat 64 fileSize),
      some (BitVec.ofNat 32 p.base.chunkSize), if p.hasNextFile then none else some true⟩
  ⟨.initial fileInitialMessage,
    serializeMessage protobuf.fileInitialMessage fileInitialMessage .empty⟩

def headerSent (protobuf : Protobuf) (p : Processor) (usedCompressor : Compressor)
    (nChunks : Nat) : Sent :=
  let chunkHeader : ChunkHeader :=
    ⟨some usedCompressor, some (BitVec.ofNat 64 nChunks),
      if p.hasNextChunk then none else some true⟩
  ⟨.header chunkHeader, serializeMessage protobuf.chunkHeader chunkHeader .empty⟩

/-- The exceptions that are caught around `openNextFile`. -/
def catchesOpening : Exn → Bool
  | .ioError _ | .compressionError .. => true
  | _ => false

def handleOpening (protobuf : Protobuf) (p : Processor) (chunk : Buffer) (x : Exn) :
    Control × List Sent :=
  if catchesOpening x then (.files p chunk, [errorSent protobuf x.what]) else (.escaped x, [])

/-- The stream that `openNextFile` finds open is closed. -/
def closeSource (s : FileProcessingStrategy) : FileProcessingStrategy :=
  if s.source.isOpen then { s with source := s.source.close } else s

section

variable (codecs : Codecs) (tree : DecisionTree) (protobuf : Protobuf) (training : Bool)

/-- What follows the loops is pushed after the queue has been cleared. -/
def endOfLoops : Control × List Sent :=
  (.ended, if training then
    [errorSent protobuf (ascii "Done traning"), errorSent protobuf (ascii "Done traning")] else [])

/-- One call, with the messages that are pushed before the next one. -/
def advance (w : World) : Control → Option (Control × List Sent)
  | .files p chunk =>
    match p.base.directoryExplorer with
    | none => some (endOfLoops protobuf training)
    | some e =>
      if e.hasNextFile then
        let s := closeSource p.base
        if e.rootIsFile then
          some (.opening (p.withBase { s with
            directoryExplorer := some { e with filesAvailable := false }
            currentFileName := e.nextFile }) chunk, [])
        else some (.finding (p.withBase s) e chunk e.nextFile, [])
      else some (endOfLoops protobuf training)
  | .finding p e chunk currentFile =>
    match findRound w e with
    | .again e => some (.finding p e chunk currentFile, [])
    | .done e =>
      some (.opening (p.withBase { p.base with
        directoryExplorer := some e, currentFileName := currentFile }) chunk, [])
    | .failed x e =>
      some (handleOpening protobuf
        (p.withBase { p.base with directoryExplorer := some e }) chunk x)
  | .opening p chunk =>
    match p.openFile w with
    | (.error x, p) => some (handleOpening protobuf p chunk x)
    | (.ok fileSize, p) => some (.chunks p chunk 0, [initialSent protobuf p fileSize])
  | .chunks p chunk nChunks =>
    if p.hasNextChunk then
      (p.getNextChunk codecs tree w chunk).map fun
        | (.error (.ioError _), chunk, p) => (.files p chunk, [])
        | (.error x, _, _) => (.escaped x, [])
        | (.ok usedCompressor, chunk, p) =>
          (.chunks p .empty (nChunks + 1),
            [headerSent protobuf p usedCompressor nChunks, ⟨.chunk chunk.contents, chunk⟩])
    else some (.files p chunk, [])
  | .ended | .escaped _ => none

structure State where
  control : Control
  transmission : Transmission

/-- A call of the loops, or a step of the instructions between two calls, of the other task or of the
network. -/
inductive Event where
  | serve (w : World)
  | other (e : Server.Event)

def State.goOn (s : State) (control : Control) (sent : List Sent) : State :=
  match control with
  | .ended => ⟨.ended, { s.transmission with
      request := sent.flatMap pushing ++ ending
      transmissionQueue :=
        if training then s.transmission.transmissionQueue.clear
        else s.transmission.transmissionQueue }⟩
  | control => ⟨control, { s.transmission with request := sent.flatMap pushing }⟩

def step (s : State) : Event → Option State
  | .serve w =>
    match s.transmission.request with
    | [] => (advance codecs tree protobuf training w s.control).map fun (control, sent) =>
      s.goOn training control sent
    | _ :: _ => none
  | .other e => (s.transmission.step e).map fun t => { s with transmission := t }

end

/-- `preparePath`, which leaves some explorer. -/
def Processor.prepared (p : Processor) (path : Path) (e : DirectoryExplorer) : Processor :=
  p.withBase { p.base with workingPath := path, directoryExplorer := some e }

def start (p : Processor) : State :=
  ⟨.files p (.withCapacity (11 * p.base.chunkSize * 1024 / 10)), .init [] .submitted⟩

/-- `processRequest` has left its scope. -/
def State.Left (s : State) : Prop :=
  (∃ x, s.control = .escaped x) ∨ s.control = .ended ∧ s.transmission.request = []

/-- No exception has left, and the scope has been left only after `requestDone` was set and the other
task had finished. -/
structure LeavesLast (s : State) : Prop where
  caught : ∀ x, s.control ≠ .escaped x
  last : s.Left → s.transmission.requestDone = true ∧ s.transmission.transmit = .finished

end Autocomp.Server.Unwinding

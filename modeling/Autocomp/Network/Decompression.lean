import Autocomp.Files.Listing
import Autocomp.Network.Client

/-!
# The decompression thread

`Client::decompress`, entry by entry of the queue. What the operating system lets the client
create is a parameter.
-/

namespace Autocomp.Client

open FileStream
open Server (Meaning)

/-- The members of a `Client` that `decompress` reads, the libraries and scripts, and the paths
that can be opened for writing. -/
structure Session where
  codecs : Codecs
  scripts : Scripts
  creatable : Path → Bool
  destinationDirectory : Path
  preCompression : Bool
  preCompressingCompressor : Compressor

/-- The variables of `decompress`, and a history of the destinations closed so far with the bytes
written to each. -/
structure Decompressor where
  decompressedChunk : Buffer
  currentFileName : Path
  out : OutStream Path
  bytesReceived : Nat
  currentFileSize : Nat
  disk : Disk Path
  finished : List (Path × ByteString)

def Decompressor.start (disk : Disk Path) : Decompressor := ⟨.empty, [], .closed, 0, 0, disk, []⟩

def MAX_STRING_LENGTH : Nat := 1000

/-- `basename` of `libgen.h`. -/
def basename (path : ByteString) : ByteString :=
  if path = [] then ascii "."
  else
    match path.reverse.dropWhile (· = slash) with
    | [] => ascii "/"
    | last => (last.takeWhile (· ≠ slash)).reverse

/-- `strncpy` of a `c_str()` into the array of `MAX_STRING_LENGTH` characters, which is not
terminated when the string does not fit. -/
def absoluteFilename (filename : ByteString) : Except Exn ByteString :=
  let string := filename.takeWhile (· ≠ 0)
  if string.length < MAX_STRING_LENGTH then .ok string else .error .undefinedBehaviour

/-- `requestFile` ends the name of the directory with a slash. -/
def withSlash (directory : Path) : Path :=
  if directory.getLast? = some slash then directory else directory ++ [slash]

def dot : ByteMemory.Byte := 0x2e

/-- `substr` up to `find_last_of('.')`. -/
def withoutExtenssion (name : ByteString) : ByteString :=
  match name.reverse.dropWhile (· ≠ dot) with
  | [] => name
  | _ :: before => before.reverse

namespace Session

/-- The extension a file is received with. -/
def extenssion (session : Session) : ByteString :=
  if session.preCompression then session.preCompressingCompressor.fileExtenssion else []

/-- The name a file is received under, given its absolute name. -/
def destination (session : Session) (filename : ByteString) : Path :=
  withSlash session.destinationDirectory ++ basename filename ++ session.extenssion

end Session

/-- The name of a file fits into the client's array, and names a destination it can create. -/
def Receivable (session : Session) (name : ByteString) : Prop :=
  ∃ filename, absoluteFilename name = .ok filename ∧
    session.creatable (session.destination filename) = true

def startFile (session : Session) (d : Decompressor) (message : FileInitialMessage) :
    Except Exn Decompressor :=
  match absoluteFilename (message.filename.getD []) with
  | .error x => .error x
  | .ok filename =>
    let currentFileName := session.destination filename
    let (out, disk) :=
      d.out.openFile d.disk currentFileName (session.creatable currentFileName)
    match d.decompressedChunk.setData [] with
    | .error x => .error x
    | .ok decompressedChunk =>
      .ok { d with
        decompressedChunk :=
          decompressedChunk.resize ((message.chunkSize.getD 0).toNat * 1024 % 2 ^ 32)
        currentFileName := currentFileName
        out := out
        bytesReceived := 0
        currentFileSize := (message.fileSize.getD 0).toNat
        disk := disk }

/-- The level the client constructs a compressor with. -/
def defaultLevel (c : Compressor) : Int :=
  match c.levels with
  | some l => l.defaultCompressionLevel
  | none => -1

/-- The chunk to be written. A `DecompressionError` is logged. -/
def decompressChunk (session : Session) (d : Decompressor) (chunkHeader : ChunkHeader)
    (chunk : Buffer) : Except Exn Buffer :=
  let compressor := chunkHeader.compressor.getD .ZLIB
  if compressor ≠ .COPY ∧ session.preCompression = false then
    match (session.codecs.strategy compressor (defaultLevel compressor)).decompress chunk
      d.decompressedChunk with
    | (.ok (), decompressedChunk) => .ok decompressedChunk
    | (.error (.decompressionError ..), decompressedChunk) => .ok decompressedChunk
    | (.error x, _) => .error x
  else .ok (d.decompressedChunk.swap chunk).1

/-- After the last chunk of a file. A wrong size is logged. -/
def finishFile (session : Session) (d : Decompressor) : Except Exn Decompressor :=
  let d := { d with
    out := d.out.close, finished := d.finished ++ [(d.currentFileName, d.out.written)] }
  if session.preCompression then
    (PreCompressingFileProcessor.decompressFile session.scripts d.currentFileName
      (withoutExtenssion d.currentFileName) session.preCompressingCompressor d.disk).map
        fun disk => { d with disk := disk }
  else .ok d

def writeChunk (d : Decompressor) (decompressedChunk : Buffer) : Decompressor :=
  let (out, disk) := d.out.write d.disk decompressedChunk.contents
  { d with
    decompressedChunk := decompressedChunk
    out := out
    disk := disk
    bytesReceived := d.bytesReceived + decompressedChunk.actualSize }

def decompressEntry (session : Session) (d : Decompressor) (entry : DecompressionQueueEntry) :
    Except Exn Decompressor :=
  if Message.isInitialized entry.fileInitialMessage then
    startFile session d entry.fileInitialMessage
  else
    match decompressChunk session d entry.chunkHeader entry.chunk with
    | .error x => .error x
    | .ok decompressedChunk =>
      let d := writeChunk d decompressedChunk
      if entry.chunkHeader.lastChunk.getD false then finishFile session d else .ok d

theorem setData_nil (b : Buffer) : b.setData [] = .ok { b with actualSize := 0 } := by
  simp [Buffer.setData, Buffer.overwrite, Buffer.setSize]

theorem startFile_eq {session : Session} {d : Decompressor} (message : FileInitialMessage)
    {filename : ByteString} (h : absoluteFilename (message.filename.getD []) = .ok filename) :
    startFile session d message = .ok { d with
      decompressedChunk := ({ d.decompressedChunk with actualSize := 0 } : Buffer).resize
        ((message.chunkSize.getD 0).toNat * 1024 % 2 ^ 32)
      currentFileName := session.destination filename
      out := (d.out.openFile d.disk (session.destination filename)
        (session.creatable (session.destination filename))).1
      bytesReceived := 0
      currentFileSize := (message.fileSize.getD 0).toNat
      disk := (d.out.openFile d.disk (session.destination filename)
        (session.creatable (session.destination filename))).2 } := by
  simp only [startFile, h, setData_nil]

theorem decompressEntry_initial {session : Session} {d : Decompressor}
    {message : FileInitialMessage} {chunkHeader : ChunkHeader} {chunk : Buffer}
    (h : Message.isInitialized message = true) :
    decompressEntry session d ⟨message, chunkHeader, chunk⟩ = startFile session d message := by
  rw [decompressEntry, if_pos h]

theorem decompressEntry_chunk {session : Session} {d : Decompressor} {chunkHeader : ChunkHeader}
    {chunk b : Buffer} (h : decompressChunk session d chunkHeader chunk = .ok b) :
    decompressEntry session d ⟨Message.empty, chunkHeader, chunk⟩ =
      if chunkHeader.lastChunk.getD false then finishFile session (writeChunk d b)
      else .ok (writeChunk d b) := by
  have hnew : Message.isInitialized (Message.empty : FileInitialMessage) = false := rfl
  simp only [decompressEntry, hnew, Bool.false_eq_true, if_false, h]

theorem finishFile_kept {session : Session} {d d' : Decompressor}
    (h : finishFile session d = .ok d') : d'.out = d.out.close ∧
      d'.finished = d.finished ++ [(d.currentFileName, d.out.written)] := by
  unfold finishFile at h
  split at h
  · cases hfile : PreCompressingFileProcessor.decompressFile session.scripts d.currentFileName
        (withoutExtenssion d.currentFileName) session.preCompressingCompressor d.disk with
    | error x => simp [hfile, Except.map] at h
    | ok disk =>
      simp only [hfile, Except.map, Except.ok.injEq] at h
      subst h
      exact ⟨rfl, rfl⟩
  · rw [Except.ok.injEq] at h
    subst h
    exact ⟨rfl, rfl⟩

def decompressAll (session : Session) (d : Decompressor) :
    List DecompressionQueueEntry → Except Exn Decompressor
  | [] => .ok d
  | entry :: entries =>
    match decompressEntry session d entry with
    | .error x => .error x
    | .ok d => decompressAll session d entries

theorem decompressAll_cons {session : Session} {d d' : Decompressor}
    {entry : DecompressionQueueEntry} (h : decompressEntry session d entry = .ok d')
    (entries : List DecompressionQueueEntry) :
    decompressAll session d (entry :: entries) = decompressAll session d' entries := by
  rw [decompressAll, h]

theorem decompressAll_append {session : Session} {d d' : Decompressor}
    {xs : List DecompressionQueueEntry} (h : decompressAll session d xs = .ok d')
    (ys : List DecompressionQueueEntry) :
    decompressAll session d (xs ++ ys) = decompressAll session d' ys := by
  induction xs generalizing d with
  | nil =>
    rw [decompressAll, Except.ok.injEq] at h
    rw [h, List.nil_append]
  | cons entry xs ih =>
    rw [decompressAll] at h
    rw [List.cons_append, decompressAll]
    cases hentry : decompressEntry session d entry with
    | error => simp [hentry] at h
    | ok next =>
      rw [hentry] at h
      exact ih h

def entries : List Meaning → List DecompressionQueueEntry
  | .initial message :: rest => ⟨message, Message.empty, .empty⟩ :: entries rest
  | .header chunkHeader :: .chunk bytes :: rest =>
    ⟨Message.empty, chunkHeader, ⟨bytes, bytes.length, bytes.length⟩⟩ :: entries rest
  | _ => []

end Autocomp.Client
